import Taxonomy.Proofs.Hierarchy.Strata

/-!
# What a walk leaves marked

Walks that share a set of visited types skip each other's visits, and more than these if one of them
was halted. A stratified walk marks a type when it visits it, so wherever it ends, the types marked
are those marked before and those visited (`Progress.Marks`). A breadth-first walk marks a type when
it is queued. If it is not halted, all that was queued has been visited, which comes to the same. If
it is halted, the seeds are marked and all successors of the types visited before the last
(`Progress.Finds`), and some of these may never have been visited
(`Grown.visited_after_walk`, `marked_unvisited_braid`).
-/

namespace Taxonomy

namespace Walk

variable {ρ : Type} {successors : Ty → FinSet Ty} {track : Bool} {visitor : Visitor ρ}
  {progress : Progress} {blocked known : FinSet Ty} {seeds : List Ty} {depth fuel : Nat} {t : Ty}

/-! ## Marking visits -/

namespace Progress

/-- What is marked has been visited, or was marked before. -/
def Marks (blocked : FinSet Ty) (progress : Progress) : Prop :=
  ∀ t, t ∈ progress.visited ↔ t ∈ blocked ∨ t ∈ progress.past.map Visit.type

/-- A type is marked as it is visited. -/
theorem Marks.visit (hm : progress.Marks blocked) (track : Bool) (t : Ty) (depth : Nat) :
    ((progress.push (progress.visit track t depth)).mark [t]).Marks blocked := by
  intro u
  rw [mark, FinSet.mem_insertAll, List.mem_singleton, push, List.map_cons, List.mem_cons, hm u,
    or_assoc, or_comm (b := u = t)]
  rfl

@[simp] theorem visited_recordAll {level : List Ty} :
    (progress.recordAll track successors level).visited = progress.visited := by
  induction level generalizing progress with
  | nil => rfl
  | cons t rest ih => rw [recordAll, List.foldl_cons, ← recordAll, ih, visited_record]

/-- Recording edges marks nothing. -/
theorem Marks.recordAll (hm : progress.Marks blocked) (level : List Ty) :
    (progress.recordAll track successors level).Marks blocked := by
  rwa [Marks, visited_recordAll, past_recordAll]

end Progress

theorem marks_emitLevel (hm : progress.Marks blocked) (level : List Ty) :
    (emitLevel track visitor depth level progress).2.2.Marks blocked := by
  induction level generalizing progress with
  | nil => exact hm
  | cons t rest ih =>
    rw [emitLevel]
    dsimp only
    split
    · exact hm.visit track t depth
    · exact ih (hm.visit track t depth)

/-- **A stratified walk marks what it visits**, wherever it is halted. -/
theorem mem_visited_emit (hm : progress.Marks blocked) (levels : List (List Ty)) :
    t ∈ (emit successors track visitor depth levels progress).visited ↔
      t ∈ blocked ∨ t ∈ (emit successors track visitor depth levels progress).order := by
  induction levels generalizing depth progress with
  | nil => exact (hm t).trans (or_congr_right mem_order_finish.symm)
  | cons level later ih =>
    have hlevel : (emitLevel track visitor depth level progress).2.2.Marks blocked :=
      marks_emitLevel hm level
    rw [emit]
    split
    · rename_i heq
      rw [heq] at hlevel
      exact (hlevel t).trans (or_congr_right mem_order_finish.symm)
    · rename_i emitted last heq
      rw [heq] at hlevel
      exact ih (hlevel.recordAll level)

/-! ## Marking what is queued -/

namespace Progress

/-- What is marked was known before the walk, or is a successor of a type visited. -/
def Finds (successors : Ty → FinSet Ty) (known : FinSet Ty) (progress : Progress) : Prop :=
  ∀ t, t ∈ progress.visited ↔ t ∈ known ∨ ∃ u ∈ progress.past.map Visit.type, t ∈ successors u

theorem Finds.next (hf : progress.Finds successors known) (track : Bool) (t : Ty) (depth : Nat) :
    (progress.next track successors t depth).Finds successors known := by
  intro u
  rw [mem_visited_next, hf u, past_next, List.map_cons, List.exists_mem_cons_iff, or_assoc,
    or_comm (b := u ∈ successors t)]
  rfl

end Progress

/-- **A breadth-first walk that is halted** has marked the successors of all types visited before
the last. -/
theorem mem_visited_breadthFirst (hf : progress.Finds successors known)
    {queue : Queue (Ty × Nat)}
    (hhalted : (breadthFirst successors track visitor fuel queue progress).halted) :
    t ∈ (breadthFirst successors track visitor fuel queue progress).visited ↔
      t ∈ known ∨
        ∃ u ∈ (breadthFirst successors track visitor fuel queue progress).order.dropLast,
          t ∈ successors u := by
  induction fuel generalizing queue progress with
  | zero => cases hhalted
  | succ fuel ih =>
    cases hq : queue.pop? with
    | none =>
      rw [breadthFirst_of_pop?_eq_none hq] at hhalted
      cases hhalted
    | some popped =>
      obtain ⟨⟨t, depth⟩, rest⟩ := popped
      rw [breadthFirst_of_pop?_eq_some hq] at hhalted ⊢
      cases hanswer : visitor progress.past (progress.visit track t depth) with
      | some result =>
        -- the successors of the type at which the walk is halted have not been looked at
        have horder : ((progress.push (progress.visit track t depth)).finish (some result)
            []).order.dropLast = (progress.past.map Visit.type).reverse := by
          rw [order, Progress.finish, Progress.push, List.reverse_cons, List.map_append,
            List.map_reverse]
          exact List.dropLast_concat
        rw [horder]
        simp only [List.mem_reverse]
        exact hf _
      | none =>
        rw [hanswer] at hhalted
        exact ih (hf.next track t depth) hhalted

end Walk

namespace Hierarchy

open Walk

variable {ρ : Type} {h : Hierarchy} {plan : Plan} {visitor : Visitor ρ} {seeds : List Ty} {t : Ty}

theorem mem_visited_stratify : t ∈ (h.stratify plan visitor seeds).visited ↔
    t ∈ plan.visited ∨ t ∈ (h.stratify plan visitor seeds).order :=
  mem_visited_emit (fun _ ↦ (or_iff_left List.not_mem_nil).symm) _

theorem mem_visited_explore_of_halted (hhalted : (h.explore plan visitor seeds).halted) :
    t ∈ (h.explore plan visitor seeds).visited ↔
      (t ∈ plan.visited ∨ t ∈ seeds) ∨
        ∃ u ∈ (h.explore plan visitor seeds).order.dropLast, t ∈ h.successors plan u := by
  rw [← FinSet.mem_insertAll]
  exact mem_visited_breadthFirst (fun _ ↦ (or_iff_left (by simp)).symm) hhalted

/-- A breadth-first walk that is not halted has visited all that it has queued. -/
theorem Mirrored.mem_visited_explore (hm : h.Mirrored) (hnodup : seeds.Nodup)
    (hseeds : ∀ s ∈ seeds, h.hasType s)
    (hunhalted : (h.explore plan visitor seeds).halted = false) :
    t ∈ (h.explore plan visitor seeds).visited ↔
      t ∈ plan.visited ∨ t ∈ (h.explore plan visitor seeds).order := by
  obtain ⟨last, hlast, -, heq, -⟩ := hm.exists_finish_explore (P := fun _ _ ↦ True) hnodup hseeds
    trivial (fun _ _ _ _ _ _ ↦ trivial) hunhalted
  have hmem := hlast.mem_visited_iff t
  rw [Progress.known, List.append_nil] at hmem
  rw [heq, mem_order_finish]
  exact hmem

/-- **What is marked after a walk.** If the walk is stratified, or is not halted, that is what was
marked before and what has been visited. If a breadth-first walk is halted, the seeds are marked and
the successors of all types visited but the last. -/
theorem Grown.visited_after_walk (hg : h.Grown) (plan : Plan) (visitor : Visitor ρ) :
    (plan.stratify ∨ (h.walk plan visitor).halted = false → ∀ t,
      t ∈ (h.walk plan visitor).visited ↔
        t ∈ plan.visited ∨ t ∈ (h.walk plan visitor).order) ∧
    (plan.stratify = false → (h.walk plan visitor).halted → ∀ t,
      t ∈ (h.walk plan visitor).visited ↔
        (t ∈ plan.visited ∨ t ∈ h.seeds plan (h.starts plan)) ∨
          ∃ u ∈ (h.walk plan visitor).order.dropLast, t ∈ h.successors plan u) := by
  have hstratify (hplan : plan.stratify = true) :
      h.walk plan visitor = h.stratify plan visitor (h.seeds plan (h.starts plan)) := if_pos hplan
  have hexplore (hplan : plan.stratify = false) :
      h.walk plan visitor = h.explore plan visitor (h.seeds plan (h.starts plan)) :=
    if_neg (Bool.not_eq_true _ ▸ hplan)
  constructor
  · intro hends t
    cases hplan : plan.stratify with
    | true =>
      rw [hstratify hplan]
      exact mem_visited_stratify
    | false =>
      have hunhalted := hends.resolve_left (Bool.eq_false_iff.1 hplan)
      rw [hexplore hplan] at hunhalted ⊢
      exact hg.wellFormed.mirrored.mem_visited_explore nodup_seeds
        (fun s hs ↦ (mem_seeds.1 hs).2.1) hunhalted
  · intro hplan hhalted t
    rw [hexplore hplan] at hhalted ⊢
    exact mem_visited_explore_of_halted hhalted

/-- The visitor that halts at `b`. -/
def haltAtB : Visitor Nat := fun _ now ↦ if now.type = .named "b" then some now.depth else none

/-- Halted at `b`, a stratified walk has marked what it has visited; a breadth-first walk has marked
`v` as well, which is below `a`. -/
theorem visited_after_walk_braid :
    braid.Grown ∧
    (braid.walk { direction := .down, stratify := true } haltAtB).halted ∧
    (∀ t, t ∈ (braid.walk { direction := .down, stratify := true } haltAtB).visited ↔
      t ∈ (∅ : FinSet Ty) ∨
        t ∈ (braid.walk { direction := .down, stratify := true } haltAtB).order) ∧
    (braid.walk { direction := .down } haltAtB).halted ∧
    .named "v" ∈ (braid.walk { direction := .down } haltAtB).visited := by
  have hhalted : (braid.walk { direction := .down } haltAtB).halted := by decide +kernel
  refine ⟨grown_braid, by decide +kernel, ?_, hhalted, ?_⟩
  · exact (grown_braid.visited_after_walk _ haltAtB).1 (.inl rfl)
  · refine ((grown_braid.visited_after_walk _ haltAtB).2 rfl hhalted _).2 (.inr ?_)
    exact ⟨.named "a", by decide +kernel, by decide +kernel⟩

/-- **A halted walk may leave types marked that no walk has visited.** `v` has been queued below `a`
when the walk is halted at `b`, so a later walk that begins at `v` skips it. -/
theorem marked_unvisited_braid :
    braid.Grown ∧
    (braid.walk { direction := .down } haltAtB).order = [.named "r", .named "a", .named "b"] ∧
    ¬ (∀ t, t ∈ (braid.walk { direction := .down } haltAtB).visited ↔
      t ∈ (∅ : FinSet Ty) ∨ t ∈ (braid.walk { direction := .down } haltAtB).order) ∧
    (braid.walk
      { direction := .down, start := some [.named "v"]
        visited := (braid.walk { direction := .down } haltAtB).visited } Visitor.never).order =
      [] := by
  have hmarked : .named "v" ∈ (braid.walk { direction := .down } haltAtB).visited := by
    decide +kernel
  have hnot : ¬ (.named "v" ∈ (∅ : FinSet Ty) ∨
      .named "v" ∈ (braid.walk { direction := .down } haltAtB).order) := by
    decide +kernel
  exact ⟨grown_braid, by decide +kernel, fun hall ↦ hnot ((hall _).1 hmarked), by decide +kernel⟩

end Hierarchy

end Taxonomy
