import Taxonomy.Proofs.Hierarchy.Marking

/-!
# Walks that share a set of visited types

Walks in one direction, with the same types left out, may share the set of types that count as
visited. To each of them what earlier walks have visited is a wall. Nothing behind the wall is lost:
if no walk is halted, together they visit what a single walk from all their starts would visit, each
type in one of them only (`Grown.sharing_walks_divide_region`).

The invariant is that the shared set is the region of the starts so far (`Covers`), so whatever may
be visited next to it has been visited. A walk adds its own region, and as it begins beside the set,
that is all that its start contributes to the region of the starts together (`Covers.append`).
-/

namespace Taxonomy.Hierarchy

open Walk

variable {ρ σ : Type}

/-- One of several walks that share what they have visited. -/
structure Leg (ρ : Type) where
  start : Option (List Ty) := none
  track : Bool := false
  stratify : Bool := false
  visitor : Visitor ρ

namespace Leg

/-- The plan of the walk, by what the walks share. -/
def plan (leg : Leg ρ) (direction : Direction) (ignored visited : FinSet Ty) : Plan where
  direction := direction
  start := leg.start
  visited := visited
  ignored := ignored
  track := leg.track
  stratify := leg.stratify

/-- Where the walk begins, by its start list or else by the direction. -/
def starts (leg : Leg ρ) (h : Hierarchy) (direction : Direction) : List Ty :=
  leg.start.getD (h.defaultStart direction)

end Leg

/-- Walks one leg after another. What a walk leaves visited is what the next one finds visited. -/
def tour (h : Hierarchy) (direction : Direction) (ignored : FinSet Ty) :
    FinSet Ty → List (Leg ρ) → List (Walk ρ)
  | _, [] => []
  | visited, leg :: later =>
    let walk := h.walk (leg.plan direction ignored visited) leg.visitor
    walk :: tour h direction ignored walk.visited later

variable {h : Hierarchy} {plan : Plan} {visitor : Visitor ρ} {direction : Direction}
  {visited ignored : FinSet Ty} {start : List Ty} {t : Ty}

/-- A walk that is not halted leaves visited what was visited before and what it has visited. -/
theorem Mirrored.mem_visited_walk (hm : h.Mirrored)
    (hunhalted : (h.walk plan visitor).halted = false) :
    t ∈ (h.walk plan visitor).visited ↔
      t ∈ plan.visited ∨ t ∈ (h.walk plan visitor).order := by
  rw [walk, walkFrom] at hunhalted ⊢
  by_cases hplan : plan.stratify
  · rw [if_pos hplan]
    exact mem_visited_stratify
  · rw [if_neg hplan] at hunhalted ⊢
    exact hm.mem_visited_explore nodup_seeds hasType_of_mem_seeds hunhalted

/-! ## Regions side by side -/

/-- The set is the region of a start, for walks by the plan that find nothing visited. -/
def Covers (h : Hierarchy) (plan : Plan) (start : List Ty) (visited : FinSet Ty) : Prop :=
  ∀ t, t ∈ visited ↔ h.Region { plan with start := some start, visited := ∅ } t

theorem Covers.nil : h.Covers plan [] ∅ := by
  refine fun t ↦ iff_of_false (FinSet.not_mem_empty t) fun ht ↦ ?_
  induction ht with
  | seed hstart => cases hstart
  | step _ _ _ ih => exact ih

/-- A region grows with the start and with what the walk does not find visited. -/
theorem Region.mono {plan' : Plan} (ht : h.Region plan t)
    (hdirection : plan.direction = plan'.direction) (hignored : plan.ignored = plan'.ignored)
    (hstart : ∀ s ∈ h.starts plan, s ∈ h.starts plan')
    (hvisited : ∀ t ∈ plan'.visited, t ∈ plan.visited) : h.Region plan' t := by
  have henters : ∀ t, h.Enters plan t → h.Enters plan' t := fun t hin ↦
    ⟨hin.1, hignored ▸ hin.2.1, fun hmem ↦ hin.2.2 (hvisited t hmem)⟩
  induction ht with
  | seed hs hin => exact .seed (hstart _ hs) (henters _ hin)
  | step _ hab hb ih => exact .step ih (hdirection ▸ hab) (henters _ hb)

/-- What is visited from further starts, beside a set that covers earlier ones, makes the set cover
them all. -/
theorem Covers.append {later : List Ty} {visited' : FinSet Ty}
    (hcovers : h.Covers plan start visited)
    (hadded : ∀ t, t ∈ visited' ↔
      t ∈ visited ∨ h.Region { plan with start := some later, visited } t) :
    h.Covers plan (start ++ later) visited' := by
  intro t
  rw [hadded]
  constructor
  · rintro (ht | ht)
    · exact ((hcovers t).1 ht).mono rfl rfl (fun _ hs ↦ List.mem_append_left _ hs) fun _ ht ↦ ht
    · exact ht.mono rfl rfl (fun _ hs ↦ List.mem_append_right _ hs)
        fun t ht ↦ absurd ht (FinSet.not_mem_empty t)
  · intro ht
    induction ht with
    | @seed s hs hin =>
      by_cases hvisited : s ∈ visited
      · exact .inl hvisited
      · rcases List.mem_append.1 hs with hs | hs
        · exact .inl ((hcovers s).2 (.seed hs hin))
        · exact .inr (.seed hs ⟨hin.1, hin.2.1, hvisited⟩)
    | @step a b _ hab hb ih =>
      by_cases hvisited : b ∈ visited
      · exact .inl hvisited
      · rcases ih with ha | ha
        · -- all that a step leads to from the set is in the set
          exact .inl ((hcovers b).2 (((hcovers a).1 ha).step hab hb))
        · exact .inr (ha.step hab ⟨hb.1, hb.2.1, hvisited⟩)

/-- A region does not depend on what the walk keeps track of, nor on the order of its visits. -/
theorem region_congr {plan' : Plan} (hdirection : plan.direction = plan'.direction)
    (hignored : plan.ignored = plan'.ignored) (hstart : h.starts plan = h.starts plan')
    (hvisited : plan.visited = plan'.visited) : h.Region plan t ↔ h.Region plan' t :=
  ⟨fun ht ↦ ht.mono hdirection hignored (fun _ hs ↦ hstart ▸ hs) (fun _ hs ↦ hvisited ▸ hs),
    fun ht ↦ ht.mono hdirection.symm hignored.symm (fun _ hs ↦ hstart ▸ hs)
      (fun _ hs ↦ hvisited ▸ hs)⟩

/-! ## One walk after another -/

/-- Each walk of a tour visits what no walk before has visited, and with what was visited before
they come to the region of all starts. -/
theorem Mirrored.tour_divides_region (hm : h.Mirrored) {legs : List (Leg ρ)}
    (hcovers : h.Covers plan start visited)
    (hunhalted : ∀ walk ∈ h.tour plan.direction plan.ignored visited legs, walk.halted = false) :
    let types := (h.tour plan.direction plan.ignored visited legs).flatMap order
    types.Nodup ∧ (∀ t ∈ types, t ∉ visited) ∧
    ∀ t, (t ∈ visited ∨ t ∈ types) ↔
      h.Region { plan with
        start := some (start ++ legs.flatMap (·.starts h plan.direction)), visited := ∅ } t := by
  induction legs generalizing visited start with
  | nil =>
    rw [List.flatMap_nil, List.append_nil]
    exact ⟨List.nodup_nil, fun t ht ↦ absurd ht List.not_mem_nil,
      fun t ↦ (or_iff_left List.not_mem_nil).trans (hcovers t)⟩
  | cons leg later ih =>
    rw [tour, List.forall_mem_cons] at hunhalted
    obtain ⟨hhere, hlater⟩ := hunhalted
    obtain ⟨hnodup, hmem⟩ := hm.visits_region hhere
    have hvisited : ∀ t, t ∈ (h.walk (leg.plan plan.direction plan.ignored visited)
        leg.visitor).visited ↔
          t ∈ visited ∨ h.Region (leg.plan plan.direction plan.ignored visited) t := fun t ↦
      (hm.mem_visited_walk hhere).trans (or_congr_right (hmem t))
    have hregion : ∀ t, h.Region (leg.plan plan.direction plan.ignored visited) t ↔
        h.Region { plan with start := some (leg.starts h plan.direction), visited } t :=
      fun t ↦ region_congr rfl rfl rfl rfl
    obtain ⟨hnodup', hfresh, hunion⟩ := ih
      (hcovers.append fun t ↦ (hvisited t).trans (or_congr_right (hregion t))) hlater
    rw [tour, List.flatMap_cons, List.flatMap_cons, ← List.append_assoc]
    refine ⟨List.nodup_append'.2 ⟨hnodup, hnodup', fun t ht ht' ↦ ?_⟩, fun t ht ↦ ?_, fun t ↦ ?_⟩
    · exact hfresh t ht' ((hvisited t).2 (.inr ((hmem t).1 ht)))
    · rcases List.mem_append.1 ht with ht | ht
      · exact ((hmem t).1 ht).enters.2.2
      · exact fun hbefore ↦ hfresh t ht ((hvisited t).2 (.inl hbefore))
    · rw [← hunion, hvisited, ← hmem, List.mem_append, or_assoc]

/-- **Walks that share what they have visited divide a region among them.** The walks of a tour go
in one direction, leave out the same types and begin with nothing visited; where each begins, and
whether it is stratified, is up to it. If none of them is halted, no type is visited by two of them,
or twice by one, and together they visit what a single walk from all their starts visits if it is
not halted. -/
theorem Grown.sharing_walks_divide_region (hg : h.Grown) {legs : List (Leg ρ)}
    (hunhalted : ∀ walk ∈ h.tour direction ignored ∅ legs, walk.halted = false)
    (track stratify : Bool) (visitor : Visitor σ) :
    let types := (h.tour direction ignored ∅ legs).flatMap order
    let start := legs.flatMap (·.starts h direction)
    let single :=
      h.walk { direction, start := some start, ignored, track, stratify } visitor
    types.Nodup ∧ (single.halted = false → types.Perm single.order) := by
  intro types start single
  have hm : h.Mirrored := hg.wellFormed.mirrored
  let plan : Plan := { direction, ignored, track, stratify }
  have hcovers : h.Covers plan [] ∅ := .nil
  obtain ⟨hnodup, -, hunion⟩ := hm.tour_divides_region hcovers hunhalted
  refine ⟨hnodup, fun hsingle ↦ ?_⟩
  obtain ⟨hnodup', hmem⟩ := hm.visits_region hsingle
  refine (List.perm_ext_iff_of_nodup hnodup hnodup').2 fun t ↦ ?_
  rw [hmem]
  exact (or_iff_right (FinSet.not_mem_empty t)).symm.trans (hunion t)

/-- A stratified walk from a cycle, a plain one from above it, one from where nothing is left, and
one from the root. -/
def braidLegs : List (Leg Empty) :=
  [{ start := some [.named "y"], stratify := true, visitor := Visitor.never },
    { start := some [.named "b", .named "x"], track := true, visitor := Visitor.never },
    { start := some [.named "z", .named "i", .named "b"], visitor := Visitor.never },
    { stratify := true, visitor := Visitor.never }]

/-- What the walk from the root is walled off from, earlier walks have visited. -/
theorem sharing_walks_divide_region_braid :
    let ignored := FinSet.ofList [.named "i"]
    let walks := braid.tour .down ignored ∅ braidLegs
    let single := braid.walk
      { direction := .down
        start := some [.named "y", .named "b", .named "x", .named "z", .named "i", .named "b",
          .named "r"]
        ignored, stratify := true } Visitor.never
    braid.Grown ∧ (∀ walk ∈ walks, walk.halted = false) ∧ single.halted = false ∧
    walks.map order = [[.named "x", .named "y", .named "z"], [.named "b", .named "c"], [],
      [.named "r", .named "a", .named "v"]] ∧
    (walks.flatMap order).Nodup ∧ (walks.flatMap order).Perm single.order := by
  intro ignored walks single
  have hunhalted : ∀ walk ∈ walks, walk.halted = false := by decide +kernel
  have hsingle : single.halted = false := by decide +kernel
  obtain ⟨hnodup, hperm⟩ :=
    grown_braid.sharing_walks_divide_region hunhalted false true Visitor.never
  exact ⟨grown_braid, hunhalted, hsingle, by decide +kernel, hnodup, hperm hsingle⟩

end Taxonomy.Hierarchy
