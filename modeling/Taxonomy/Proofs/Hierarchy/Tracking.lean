import Taxonomy.Proofs.Hierarchy.Strata

/-!
# What a walk keeps track of

A walk that keeps track records the edges out of the types that it visits. The two ways to walk do
so at different moments, a breadth-first walk at each visit and a stratified walk once a layer is
complete. In the end it comes to the same: what is on record for a type visited are the types
visited that have an edge to it, and nothing is on record if there are none
(`Grown.walks_agree`).

`Progress.Records` is what holds of a breadth-first walk at any moment. That no entry is empty is
kept by everything that is ever recorded (`Progress.Filled.record`).
-/

namespace Taxonomy

namespace Walk

variable {ρ : Type} {successors : Ty → FinSet Ty} {track : Bool} {visitor : Visitor ρ}
  {progress : Progress} {types blocked : FinSet Ty} {depth : Nat} {p t u : Ty}

namespace Progress

/-- No type is on record without a predecessor. -/
def Filled (progress : Progress) : Prop := ∀ u, progress.predecessors.get? u ≠ some ∅

theorem Filled.record (hf : progress.Filled) (track : Bool) (t : Ty) (next : FinSet Ty) :
    (progress.record track t next).Filled := by
  cases track with
  | false => exact hf
  | true =>
    have hfold : ∀ (l : List Ty) (m : FinMap Ty (FinSet Ty)), (∀ u, m.get? u ≠ some ∅) →
        ∀ u, (l.foldl (fun m v ↦ m.upsert v ∅ (·.insert t)) m).get? u ≠ some ∅ := by
      intro l
      induction l with
      | nil => exact fun m hm ↦ hm
      | cons v rest ih =>
        refine fun m hm ↦ ih _ fun u ↦ ?_
        rw [FinMap.get?_upsert]
        split
        · -- the entry that is written has `t` in it
          intro hempty
          have hmem : t ∈ (m.getD v ∅).insert t := FinSet.mem_insert.2 (.inl rfl)
          rw [Option.some.inj hempty] at hmem
          exact FinSet.not_mem_empty t hmem
        · exact hm u
    exact hfold next.toList progress.predecessors hf

/-- The edges on record are those out of the types visited. -/
structure Records (successors : Ty → FinSet Ty) (track : Bool) (progress : Progress) : Prop where
  mem_iff : ∀ p u, p ∈ progress.predecessors.getD u ∅ ↔
    track ∧ p ∈ progress.past.map Visit.type ∧ u ∈ successors p
  filled : progress.Filled

theorem Records.initial (successors : Ty → FinSet Ty) (track : Bool) (visited : FinSet Ty) :
    Records successors track ⟨[], visited, ∅⟩ where
  mem_iff p u := by simp [FinMap.getD]
  filled u := by simp

theorem Records.next (hr : progress.Records successors track) (t : Ty) (depth : Nat) :
    (progress.next track successors t depth).Records successors track where
  mem_iff p u := by
    rw [past_next, List.map_cons, List.mem_cons, Progress.next, mark, mem_predecessors_record]
    change p ∈ progress.predecessors.getD u ∅ ∨ _ ↔ track ∧ (p = t ∨ _) ∧ _
    rw [hr.mem_iff]
    constructor
    · rintro (⟨htrack, hp, hu⟩ | ⟨htrack, rfl, hu⟩)
      · exact ⟨htrack, .inr hp, hu⟩
      · exact ⟨htrack, .inl rfl, hu⟩
    · rintro ⟨htrack, rfl | hp, hu⟩
      · exact .inr ⟨htrack, rfl, hu⟩
      · exact .inl ⟨htrack, hp, hu⟩
  filled := by
    have hpush : (progress.push (progress.visit track t depth)).Filled := hr.filled
    exact hpush.record track t (successors t)

/-! ## Layer by layer -/

theorem Filled.recordAll (hf : progress.Filled) (level : List Ty) :
    (progress.recordAll track successors level).Filled := by
  induction level generalizing progress with
  | nil => exact hf
  | cons t rest ih => exact ih (hf.record track t (successors t))

theorem Filled.afterLayers (hf : progress.Filled) (levels : List (List Ty)) :
    (progress.afterLayers successors track depth levels).Filled := by
  induction levels generalizing depth progress with
  | nil => exact hf
  | cons level later ih =>
    have hvisit : (progress.visitLayer track depth level).Filled := hf
    exact ih (hvisit.recordAll level)

end Progress

namespace Unhalted

variable {walk : Walk ρ} (hu : Unhalted successors track visitor types blocked walk)

include hu

end Unhalted

end Walk

namespace Hierarchy

open Walk

variable {ρ σ : Type} {h : Hierarchy} {plan : Plan} {visitor : Visitor ρ} {t : Ty}

/-- What two plans that differ in how they order visits lead to is the same. -/
theorem Mirrored.region_stratify_iff (hm : h.Mirrored) (stratify : Bool) :
    h.Region { plan with stratify } t ↔ h.Region plan t := by
  -- the seeds and the successors do not depend on the order of visits
  rw [hm.region_iff_admitted, hm.region_iff_admitted]
  rfl

end Hierarchy

end Taxonomy
