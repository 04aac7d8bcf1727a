import Taxonomy.Proofs.Hierarchy.Omission
import Taxonomy.Proofs.Resolution.Fold

/-!
# What a walk covers by default

The leaves are found by a walk down from the root. They are all the members without children, since
the root is above every member.

A walk that is told neither where to begin nor what to leave out goes down from the root or up from
the leaves. Down from the root it comes to every member, circular or not
(`WellFormed.region_whole_down`). Up from the leaves it comes to the members that have a leaf below
them (`WellFormed.region_whole_up`), which may not be all: whoever goes down from a member may be
kept on a cycle. Without cycles each step down leads to a member with less below it, and the last
one is a leaf (`Acyclic.exists_leaf`).
-/

open Relation

namespace Taxonomy.Hierarchy

variable {ρ : Type} {h : Hierarchy} {plan : Plan} {t : Ty}

/-! ## Leaves below members -/

theorem WellFormed.mem_leaves_iff (hw : h.WellFormed) :
    t ∈ h.leaves ↔ h.hasType t ∧ ∀ c, ¬ h.Edge t c := by
  rw [hw.leaves_eq_childless]
  exact mem_childless

/-- **Without cycles a path leads from every member down to a leaf.** -/
theorem Acyclic.exists_leaf (hc : h.Acyclic) (hw : h.WellFormed) (ht : h.hasType t) :
    ∃ leaf ∈ h.leaves, ReflTransGen h.Edge t leaf := by
  have hm := hw.mirrored
  induction ht using hc.induction hm .up with
  | step u hu ih =>
    by_cases hleaf : ∃ c, h.Edge u c
    · -- what a path up leads from is below `u`
      obtain ⟨c, hedge⟩ := hleaf
      obtain ⟨leaf, hmem, hpath⟩ :=
        ih c (hm.hasType_right hedge) (hm.transGen_step_up_iff.2 (.single hedge))
      exact ⟨leaf, hmem, hpath.head hedge⟩
    · exact ⟨u, hw.mem_leaves_iff.2 ⟨hu, not_exists.1 hleaf⟩, .refl⟩

/-! ## Whole walks -/

/-- Up from the leaves are the members with a leaf below them, on cycles or not. -/
theorem WellFormed.region_whole_up (hw : h.WellFormed) (hplan : plan.Whole)
    (hup : plan.direction = .up) :
    h.Region plan t ↔ ∃ leaf ∈ h.leaves, ReflTransGen h.Edge t leaf := by
  rw [hw.mirrored.region_whole_iff hplan, hup]
  refine exists_congr fun leaf ↦ ?_
  rw [defaultStart, FinSet.mem_toList]
  refine and_congr_right fun hleaf ↦ ?_
  rw [and_iff_right (hw.mem_leaves_iff.1 hleaf).1]
  exact hw.mirrored.reflTransGen_opposite_iff (d := .down)

/-- A whole walk is to visit all members, if it does not go up on cycles. -/
theorem WellFormed.region_whole (hw : h.WellFormed) (hplan : plan.Whole)
    (hacyclic : plan.direction = .up → h.Acyclic) : h.Region plan t ↔ h.hasType t := by
  cases hdirection : plan.direction with
  | down => exact hw.region_whole_down hplan hdirection
  | up =>
    exact ⟨fun ht ↦ ht.enters.1, fun ht ↦
      (hw.region_whole_up hplan hdirection).2 ((hacyclic hdirection).exists_leaf hw ht)⟩

/-- **Leaves are all the members without children, and whole walks visit all members.** Without
cycles every member is a leaf or has one below it, so a walk up from the leaves that is not halted
visits each member once. So does a walk down from the root, cycles or not. Whether the walk is
stratified or keeps track makes no difference. -/
theorem Grown.leaves_and_whole_walks (hg : h.Grown) :
    (∀ t, t ∈ h.leaves ↔ h.hasType t ∧ ∀ c, ¬ h.Edge t c) ∧
    (h.Acyclic → ∀ t, h.hasType t → ∃ leaf ∈ h.leaves, leaf ∈ h.reflexiveClosure .down t) ∧
    ∀ (plan : Plan) (visitor : Visitor ρ), plan.Whole →
      (plan.direction = .up → h.Acyclic) → (h.walk plan visitor).halted = false →
        (h.walk plan visitor).order.Perm h.types.toList := by
  have hw : h.WellFormed := hg.wellFormed
  refine ⟨fun t ↦ hw.mem_leaves_iff, fun hc t ht ↦ ?_,
    fun plan visitor hplan hacyclic hunhalted ↦ ?_⟩
  · obtain ⟨leaf, hleaf, hpath⟩ := hc.exists_leaf hw ht
    exact ⟨leaf, hleaf, (hw.mirrored.mem_reflexiveClosure_iff_path ht).2 hpath⟩
  · obtain ⟨hnodup, hvisits⟩ := hw.mirrored.visits_region hunhalted
    rw [List.perm_ext_iff_of_nodup hnodup h.types.nodup]
    intro t
    rw [hvisits, hw.region_whole hplan hacyclic, FinSet.mem_toList, mem_types]

/-- A stratified walk up from the two leaves of the crown, and a walk down past the cycle of `x` and
`y`. -/
theorem leaves_and_whole_walks_crown :
    let up : Plan := { direction := .up, stratify := true }
    let down : Plan := { direction := .down, track := true }
    crown.Grown ∧ crown.Acyclic ∧ braid.Grown ∧ braid.isCircular = true ∧ up.Whole ∧ down.Whole ∧
    crown.leaves.toList = [.named "c", .named "d"] ∧
    (∃ leaf ∈ crown.leaves, leaf ∈ crown.reflexiveClosure .down (.named "a")) ∧
    (crown.walk up Visitor.never).order.Perm crown.types.toList ∧
    .named "z" ∈ braid.leaves ∧
    (braid.walk down Visitor.never).order.Perm braid.types.toList := by
  intro up down
  obtain ⟨-, hleaf, hcrown⟩ := grown_crown.leaves_and_whole_walks (ρ := Empty)
  obtain ⟨hleaves, -, hbraid⟩ := grown_braid.leaves_and_whole_walks (ρ := Empty)
  have hz : .named "z" ∈ braid.leaves :=
    (hleaves (.named "z")).2 ⟨by decide, fun c hc ↦ FinSet.isEmpty_iff.1 (by decide) c hc⟩
  have hup : up.Whole := ⟨rfl, rfl, rfl⟩
  have hdown : down.Whole := ⟨rfl, rfl, rfl⟩
  exact ⟨grown_crown, acyclic_crown, grown_braid, by decide, hup, hdown, by decide +kernel,
    hleaf acyclic_crown _ (by decide), hcrown up .never hup (fun _ ↦ acyclic_crown) halted_never,
    hz, hbraid down .never hdown nofun halted_never⟩

end Taxonomy.Hierarchy
