import Taxonomy.Proofs.Hierarchy.Strata
import Taxonomy.Proofs.Walk.Locality

/-!
# Ignored types

Types that a walk ignores are skipped as if they were not in the hierarchy: from any start, the walk
is that of the hierarchy `without` them (`Mirrored.walkFrom_without`), because a walk looks only
where it goes, never goes to an ignored type, and sees the same edges from the others
(`Mirrored.successors_without`).

The start that a walk up is given by default is another matter. It is made of the members without
children, ignored or not. A member whose children are all ignored is not among them, though it would
be if the ignored types were not there. Such *bared* members are all that makes a difference
(`Grown.walk_ignores_as_absent`).
-/

open Relation

namespace Taxonomy.Hierarchy

open Walk

variable {ρ : Type} {h : Hierarchy} {plan : Plan} {visitor : Visitor ρ} {ignored : FinSet Ty}
  {d : Direction} {t u : Ty} {start : List Ty}

/-! ## The hierarchy without some types -/

/-- The hierarchy that is left if some types are taken out with all edges into and out of them. -/
def without (h : Hierarchy) (ignored : FinSet Ty) : Hierarchy :=
  let kept := h.types.filter (· ∉ ignored)
  { h with
    parents := .ofKeys kept fun t ↦ (h.parentsOf t).filter (· ∉ ignored)
    children := .ofKeys kept fun t ↦ (h.childrenOf t).filter (· ∉ ignored)
    attributes := h.attributes.filter fun t _ ↦ t ∉ ignored }

theorem hasType_without : (h.without ignored).hasType t ↔ h.hasType t ∧ t ∉ ignored := by
  rw [hasType, FinMap.contains, without, FinMap.get?_ofKeys, ← mem_types]
  by_cases ht : t ∈ h.types.filter (· ∉ ignored)
  · rw [if_pos ht]
    simpa using ht
  · rw [if_neg ht]
    simpa using ht

theorem neighbours_without : (h.without ignored).neighbours d t =
    if t ∈ h.types.filter (· ∉ ignored) then (h.neighbours d t).filter (· ∉ ignored) else ∅ := by
  cases d with
  | down =>
    rw [neighbours, childrenOf, FinMap.getD, without, FinMap.get?_ofKeys]
    split <;> rfl
  | up =>
    rw [neighbours, parentsOf, FinMap.getD, without, FinMap.get?_ofKeys]
    split <;> rfl

/-- The edges that are left are those between the types that are left. -/
theorem Mirrored.step_without (hm : h.Mirrored) :
    (h.without ignored).Step d t u ↔ h.Step d t u ∧ t ∉ ignored ∧ u ∉ ignored := by
  rw [Step, neighbours_without]
  split
  · rename_i ht
    rw [FinSet.mem_filter, decide_eq_true_eq] at ht ⊢
    exact and_congr_right fun _ ↦ (and_iff_right ht.2).symm
  · rename_i ht
    refine iff_of_false (FinSet.not_mem_empty u) fun ⟨hstep, hkept, _⟩ ↦ ht ?_
    rw [FinSet.mem_filter, decide_eq_true_eq]
    exact ⟨mem_types.2 (hm.hasType_of_step hstep).1, hkept⟩

/-! ## Walks that are told where to begin -/

theorem seeds_without : (h.without plan.ignored).seeds { plan with ignored := ∅ } start =
    h.seeds plan start := by
  rw [seeds, seeds]
  refine congrArg FinSet.firsts (List.filter_congr fun t _ ↦ ?_)
  rw [Bool.eq_iff_iff]
  simp only [Bool.and_eq_true, decide_eq_true_eq, hasType_without, FinSet.not_mem_empty,
    not_false_eq_true, and_true]

/-- From a type that is left, a walk sees what it would see if it had to ignore the others. -/
theorem Mirrored.successors_without (hm : h.Mirrored) (hkept : t ∉ plan.ignored) :
    (h.without plan.ignored).successors { plan with ignored := ∅ } t = h.successors plan t := by
  refine FinSet.ext fun u ↦ ?_
  rw [mem_successors, mem_successors, hm.step_without, and_iff_right hkept]
  exact and_iff_left (FinSet.not_mem_empty u)

/-- A walk that begins at types that it may enter is admitted to such types only. -/
theorem Mirrored.enters_of_admitted (hm : h.Mirrored)
    (ht : Admitted (h.successors plan) plan.visited (h.seeds plan start) t) : h.Enters plan t := by
  have hregion : h.Region { plan with start := some start } t := hm.region_iff_admitted.2 ht
  exact hregion.enters

theorem Mirrored.explore_without (hm : h.Mirrored) :
    (h.without plan.ignored).explore { plan with ignored := ∅ } visitor (h.seeds plan start) =
      h.explore plan visitor (h.seeds plan start) := by
  have hfew : AdmitsAtMost (h.successors plan) plan.visited (h.seeds plan start)
      (h.without plan.ignored).size := fun l hl hadmitted ↦ by
    refine length_le_size hl fun t ht ↦ hasType_without.2 ?_
    have henters := hm.enters_of_admitted (hadmitted t ht)
    exact ⟨henters.1, henters.2.1⟩
  exact (breadthFirst_eq_of_agree
    (fun t ht ↦ (hm.successors_without (hm.enters_of_admitted ht).2.1).symm)
    (.initial_queue nodup_seeds) (hm.admitsAtMost_size hasType_of_mem_seeds) hfew).symm

/-- **Ignored types are as good as absent** to a walk that is told where to begin. -/
theorem Mirrored.walkFrom_without (hm : h.Mirrored) (plan : Plan) (visitor : Visitor ρ)
    (start : List Ty) :
    (h.without plan.ignored).walkFrom { plan with ignored := ∅ } visitor start =
      h.walkFrom plan visitor start := by
  rw [walkFrom, walkFrom, seeds_without]
  refine if_congr Iff.rfl ?_ hm.explore_without
  rw [stratify, stratify, hm.explore_without]
  refine stratified_congr fun t ht ↦ hm.successors_without ?_
  rw [FinSet.mem_ofList, mem_order_explore hm nodup_seeds hasType_of_mem_seeds] at ht
  exact (hm.enters_of_admitted ht).2.1

/-! ## Where a walk begins -/

/-- The members without children. -/
def childless (h : Hierarchy) : FinSet Ty := h.types.filter fun t ↦ (h.childrenOf t).isEmpty

/-- Where a walk is to begin: where its plan says, or else at the root on the way down, and at the
members without children on the way up. -/
def outset (h : Hierarchy) (plan : Plan) : List Ty :=
  plan.start.getD <|
    match plan.direction with
    | .down => [h.root]
    | .up => h.childless.toList

theorem mem_childless : t ∈ h.childless ↔ h.hasType t ∧ ∀ c, c ∉ h.childrenOf t := by
  rw [childless, FinSet.mem_filter, mem_types, FinSet.isEmpty_iff]

/-- A path leads down from the root to every member. -/
theorem WellFormed.reflTransGen_root_iff (hw : h.WellFormed) :
    ReflTransGen h.Edge h.root t ↔ h.hasType t :=
  ⟨hw.mirrored.hasType_of_reflTransGen (d := .down) hw.hasType_root, hw.reached t⟩

theorem WellFormed.region_whole_down (hw : h.WellFormed) (hplan : plan.Whole)
    (hdown : plan.direction = .down) : h.Region plan t ↔ h.hasType t := by
  rw [hw.mirrored.region_whole_iff hplan, hdown, ← hw.reflTransGen_root_iff]
  change (∃ s ∈ [h.root], h.hasType s ∧ ReflTransGen h.Edge s t) ↔ _
  simp [hw.hasType_root]

/-- A walk down from the root visits all members. -/
theorem WellFormed.mem_order_down (hw : h.WellFormed) :
    t ∈ (h.walkFrom { direction := .down } Visitor.never [h.root]).order ↔ h.hasType t := by
  have hregion : t ∈ (h.walkFrom { direction := .down } Visitor.never [h.root]).order ↔
      h.Region { direction := .down } t :=
    mem_order_explore_seeds hw.mirrored
  exact hregion.trans (hw.region_whole_down ⟨rfl, rfl, rfl⟩ rfl)

/-- The leaves are the members without children. -/
theorem WellFormed.leaves_eq_childless (hw : h.WellFormed) : h.leaves = h.childless := by
  refine FinSet.ext fun t ↦ ?_
  rw [leaves, FinSet.mem_ofList, List.mem_filter, hw.mem_order_down, FinSet.isEmpty_iff,
    mem_childless]

theorem WellFormed.starts_eq_outset (hw : h.WellFormed) : h.starts plan = h.outset plan := by
  refine congrArg plan.start.getD ?_
  cases plan.direction with
  | down => rfl
  | up => exact congrArg FinSet.toList hw.leaves_eq_childless

/-- A type that a walk up misses, as it is told no start and ignores all children of the type, though
the type has some. -/
structure Bared (h : Hierarchy) (plan : Plan) (t : Ty) : Prop where
  start_eq : plan.start = none
  direction_eq : plan.direction = .up
  enters : h.Enters plan t
  exists_child : ∃ c, c ∈ h.childrenOf t
  ignored : ∀ c ∈ h.childrenOf t, c ∈ plan.ignored

theorem Mirrored.mem_childless_without (hm : h.Mirrored) : t ∈ (h.without ignored).childless ↔
    (h.hasType t ∧ t ∉ ignored) ∧ ∀ c ∈ h.childrenOf t, c ∈ ignored := by
  rw [mem_childless, hasType_without]
  refine and_congr_right fun ⟨_, hkept⟩ ↦ forall_congr' fun c ↦ ?_
  change ¬ (h.without ignored).Step .down t c ↔ (h.Step .down t c → c ∈ ignored)
  rw [hm.step_without, and_iff_right hkept, not_and_not_right]

/-- The seeds of an ascending start depend only on the types in it that the walk may enter. -/
theorem seeds_toList_congr {s s' : FinSet Ty} (heq : ∀ t, h.Enters plan t → (t ∈ s ↔ t ∈ s')) :
    h.seeds plan s.toList = h.seeds plan s'.toList := by
  rw [seeds, seeds, ← FinSet.toList_filter, ← FinSet.toList_filter]
  refine congrArg (fun s : FinSet Ty ↦ FinSet.firsts s.toList) (FinSet.ext fun t ↦ ?_)
  simp only [FinSet.mem_filter, Bool.and_eq_true, decide_eq_true_eq, and_assoc]
  exact and_congr_left fun ht ↦ heq t ht

/-- But for bared types, a walk begins where it would if the ignored types were not there. -/
theorem Mirrored.seeds_outset_without (hm : h.Mirrored) (hbared : ∀ t, ¬ h.Bared plan t) :
    h.seeds plan ((h.without plan.ignored).outset plan) = h.seeds plan (h.outset plan) := by
  cases hstart : plan.start with
  | some start => rw [outset, outset, hstart, Option.getD_some, Option.getD_some]
  | none =>
    rw [outset, outset, hstart, Option.getD_none, Option.getD_none]
    cases hdirection : plan.direction with
    | down => rfl
    | up =>
      refine seeds_toList_congr fun t ht ↦ ?_
      rw [hm.mem_childless_without, mem_childless]
      constructor
      · rintro ⟨-, hignored⟩
        exact ⟨ht.1, fun c hc ↦ hbared t ⟨hstart, hdirection, ht, ⟨c, hc⟩, hignored⟩⟩
      · rintro ⟨hmember, hnone⟩
        exact ⟨⟨hmember, ht.2.1⟩, fun c hc ↦ absurd hc (hnone c)⟩

/-- A bared type is one at which a walk is to begin. -/
theorem Mirrored.mem_outset_of_bared (hm : h.Mirrored) (ht : h.Bared plan t) :
    t ∈ (h.without plan.ignored).outset plan := by
  rw [outset, ht.start_eq, ht.direction_eq, Option.getD_none, FinSet.mem_toList,
    hm.mem_childless_without]
  exact ⟨⟨ht.enters.1, ht.enters.2.1⟩, ht.ignored⟩

/-- A walk up begins at members without children, ignored or not, and comes to no other member but
from its children. -/
theorem WellFormed.not_region_of_bared (hw : h.WellFormed) (ht : h.Bared plan t) :
    ¬ h.Region plan t := by
  obtain ⟨c, hc⟩ := ht.exists_child
  intro hregion
  cases hregion with
  | seed hseed _ =>
    rw [hw.starts_eq_outset, outset, ht.start_eq, ht.direction_eq, Option.getD_none,
      FinSet.mem_toList, mem_childless] at hseed
    exact hseed.2 c hc
  | step hbelow hstep _ =>
    rw [ht.direction_eq, hw.mirrored.step_up_iff] at hstep
    exact hbelow.enters.2.1 (ht.ignored _ hstep)

/-! ## Walks -/

/-- **A walk skips ignored types as if they were not there, once it has begun.** Whoever watches and
halts it, it is the walk from the same start in the hierarchy without the ignored types. It begins
where that hierarchy says, too, unless types are bared: a walk up that is told no start misses just
them among the types at which it should begin. -/
theorem Grown.walk_ignores_as_absent (hg : h.Grown) (plan : Plan) (visitor : Visitor ρ) :
    let rest := h.without plan.ignored
    h.walk plan visitor =
      rest.walk { plan with ignored := ∅, start := some (h.outset plan) } visitor ∧
    ((∀ t, ¬ h.Bared plan t) →
      h.walk plan visitor =
        rest.walk { plan with ignored := ∅, start := some (rest.outset plan) } visitor) ∧
    ∀ t, h.Bared plan t →
      t ∈ (rest.walk { plan with ignored := ∅, start := some (rest.outset plan) }
        Visitor.never).order ∧
      t ∉ (h.walk plan Visitor.never).order := by
  have hw : h.WellFormed := hg.wellFormed
  intro rest
  have hrest : ∀ {σ : Type} (visitor : Visitor σ) (start : List Ty),
      rest.walk { plan with ignored := ∅, start := some start } visitor =
        h.walkFrom plan visitor start := fun visitor start ↦
    hw.mirrored.walkFrom_without plan visitor start
  have hwalk : h.walk plan visitor = h.walkFrom plan visitor (h.outset plan) := by
    rw [← hw.starts_eq_outset]
    rfl
  refine ⟨?_, fun hbared ↦ ?_, fun t ht ↦ ⟨?_, ?_⟩⟩
  · rw [hrest, hwalk]
  · rw [hrest, hwalk, walkFrom, walkFrom, hw.mirrored.seeds_outset_without hbared]
  · rw [hrest]
    have hregion : h.Region { plan with start := some (rest.outset plan) } t :=
      .seed (hw.mirrored.mem_outset_of_bared ht) ht.enters
    exact hw.mirrored.mem_order_walk.2 hregion
  · rw [hw.mirrored.mem_order_walk]
    exact hw.not_region_of_bared ht

/-- To leave `z` out makes no difference to a stratified walk up other than that `z` is not there. If
`x` is left out as well, `y` is bared. -/
theorem walk_ignores_as_absent_braid :
    let plan : Plan := { direction := .up, ignored := FinSet.ofList [.named "z"], stratify := true }
    let plan' : Plan := { direction := .up, ignored := FinSet.ofList [.named "x", .named "z"] }
    let rest := braid.without plan.ignored
    let rest' := braid.without plan'.ignored
    braid.Grown ∧ (∀ t, ¬ braid.Bared plan t) ∧
    braid.walk plan Visitor.never =
      rest.walk { plan with ignored := ∅, start := some (rest.outset plan) } Visitor.never ∧
    (braid.walk plan Visitor.never).strata =
      [[.named "i", .named "v"], [.named "a"], [.named "r"]] ∧
    braid.Bared plan' (.named "y") ∧
    .named "y" ∈ (rest'.walk { plan' with ignored := ∅, start := some (rest'.outset plan') }
      Visitor.never).order := by
  intro plan plan' rest rest'
  have hchild : ∀ t ∈ braid.types.toList, (∀ c ∈ (braid.childrenOf t).toList, c ∈ plan.ignored) →
      (braid.childrenOf t).toList = [] := by
    decide +kernel
  have hbared : ∀ t, ¬ braid.Bared plan t := by
    intro t ht
    obtain ⟨c, hc⟩ := ht.exists_child
    have hnil := hchild t (FinSet.mem_toList.2 (mem_types.2 ht.enters.1)) fun c hc ↦
      ht.ignored c (FinSet.mem_toList.1 hc)
    rw [← FinSet.mem_toList, hnil] at hc
    exact List.not_mem_nil hc
  have hy : braid.Bared plan' (.named "y") := by
    have henters : braid.Enters plan' (.named "y") :=
      ⟨by decide +kernel, by decide +kernel, by decide +kernel⟩
    refine ⟨rfl, rfl, henters, ⟨.named "x", by decide +kernel⟩, fun c hc ↦ ?_⟩
    have hall : ∀ c ∈ (braid.childrenOf (.named "y")).toList, c ∈ plan'.ignored := by
      decide +kernel
    exact hall c (FinSet.mem_toList.2 hc)
  exact ⟨grown_braid, hbared,
    (grown_braid.walk_ignores_as_absent plan Visitor.never).2.1 hbared, by decide +kernel, hy,
    ((grown_braid.walk_ignores_as_absent plan' Visitor.never).2.2 _ hy).1⟩

/-- **A walk up may miss types that have ignored children only.** Were `x` and `z` not there, `c` and
`y` would be without children and the walk would begin at them. -/
theorem bared_missed_braid :
    let plan : Plan := { direction := .up, ignored := FinSet.ofList [.named "x", .named "z"] }
    let rest := braid.without plan.ignored
    let walk := braid.walk plan Visitor.never
    let expected :=
      rest.walk { plan with ignored := ∅, start := some (rest.outset plan) } Visitor.never
    braid.Grown ∧ rest.outset plan = [.named "c", .named "i", .named "v", .named "y"] ∧
    walk.order = [.named "i", .named "v", .named "a", .named "r"] ∧
    expected.order =
      [.named "c", .named "i", .named "v", .named "y", .named "a", .named "b", .named "r"] ∧
    ¬ walk.visits = expected.visits := by
  intro plan rest walk expected
  exact ⟨grown_braid, by decide +kernel, by decide +kernel, by decide +kernel, by decide +kernel⟩

end Taxonomy.Hierarchy
