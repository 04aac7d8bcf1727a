import Taxonomy.Proofs.Hierarchy.Strata

/-!
# Halted walks

A visitor may halt a walk at any visit, in the midst of a stratum, too. Until then the walk is the
one that is not halted: it has made the same visits, the visitor has seen the same depths and
predecessors, and the strata are the same up to the last one, which is cut off at the visit that was
answered (`walk_is_beginning_of_whole`). Nothing is asked of the hierarchy for this.

Both ways to walk *follow* the walk that is not halted (`Walk.Follows`): the visits are what the
visitor sees of it and the result is its first answer. At which call that is, is a matter of the
visitor and the visits alone (`Visitor.HaltsAt`).
-/

namespace Taxonomy

variable {ρ : Type} {visitor : Visitor ρ}

namespace Visitor

variable {past visits : List Visit} {k : Nat} {result : ρ}

/-- Called for visits made one after another, after those of `past`, the visitor declines until its
`k`-th call and answers that one with `result`. -/
inductive HaltsAt (visitor : Visitor ρ) : List Visit → List Visit → Nat → ρ → Prop
  | first {past later : List Visit} {now : Visit} {result : ρ}
      (hanswer : visitor past now = some result) : HaltsAt visitor past (now :: later) 1 result
  | later {past later : List Visit} {now : Visit} {k : Nat} {result : ρ}
      (hdecline : visitor past now = none) (hlater : HaltsAt visitor (now :: past) later k result) :
      HaltsAt visitor past (now :: later) (k + 1) result

namespace HaltsAt

theorem firstAnswer?_eq_some (h : visitor.HaltsAt past visits k result) :
    visitor.firstAnswer? past visits = some result := by
  induction h with
  | first hanswer => rw [firstAnswer?, hanswer, Option.some_or]
  | later hdecline _ ih => rw [firstAnswer?, hdecline, Option.none_or, ih]

/-- A visitor sees as many visits as it is called for. -/
theorem seen_eq_take (h : visitor.HaltsAt past visits k result) :
    visitor.seen past visits = visits.take k := by
  induction h with
  | first hanswer =>
    rw [seen, hanswer]
    rfl
  | later hdecline _ ih =>
    rw [seen, hdecline, List.take_succ_cons, ← ih]
    rfl

theorem le_length (h : visitor.HaltsAt past visits k result) : k ≤ visits.length := by
  induction h with
  | first _ => exact Nat.succ_le_succ (Nat.zero_le _)
  | later _ _ ih => exact Nat.succ_le_succ ih

end HaltsAt

/-- An answer is given at some call. -/
theorem exists_haltsAt (h : visitor.firstAnswer? past visits = some result) :
    ∃ k, visitor.HaltsAt past visits k result := by
  induction visits generalizing past with
  | nil => cases h
  | cons now later ih =>
    rw [firstAnswer?] at h
    cases hanswer : visitor past now with
    | some answer =>
      rw [hanswer, Option.some_or] at h
      exact ⟨1, .first (hanswer.trans h)⟩
    | none =>
      rw [hanswer, Option.none_or] at h
      obtain ⟨k, hk⟩ := ih h
      exact ⟨k + 1, .later hanswer hk⟩

/-- A visitor that never answers sees all visits. -/
theorem seen_eq_self (h : visitor.firstAnswer? past visits = none) :
    visitor.seen past visits = visits := by
  have hseen : visitor.seen past (visits ++ []) =
      visits ++ visitor.seen (visits.reverse ++ past) [] := seen_append_of_eq_none h
  rwa [List.append_nil, seen, List.append_nil] at hseen

end Visitor

namespace Walk

/-- The walk makes the visits of another walk until the visitor answers. -/
structure Follows (visitor : Visitor ρ) (whole : Walk Empty) (walk : Walk ρ) : Prop where
  result_eq : walk.result = visitor.firstAnswer? [] whole.visits
  visits_eq : walk.visits = visitor.seen [] whole.visits

theorem Follows.haltsAt_iff {whole : Walk Empty} {walk : Walk ρ}
    (h : Follows visitor whole walk) {k : Nat} {result : ρ} :
    visitor.HaltsAt [] whole.visits k result ↔
      walk.result = some result ∧ walk.visits.length = k := by
  have hlength : ∀ {k result}, visitor.HaltsAt [] whole.visits k result →
      walk.visits.length = k := by
    intro k result hk
    rw [h.visits_eq, hk.seen_eq_take, List.length_take, Nat.min_eq_left hk.le_length]
  constructor
  · intro hk
    exact ⟨h.result_eq.trans hk.firstAnswer?_eq_some, hlength hk⟩
  · rintro ⟨hresult, rfl⟩
    -- the answer was given at some call, and the calls are as many as the visits
    obtain ⟨k, hk⟩ := Visitor.exists_haltsAt (h.result_eq.symm.trans hresult)
    rwa [hlength hk]

/-! ## Strata of a halted walk -/

variable {successors : Ty → FinSet Ty} {track : Bool} {progress : Progress} {depth : Nat}
  {level : List Ty} {levels : List (List Ty)} {result : ρ}

theorem types_past_emitLevel :
    (emitLevel track visitor depth level progress).2.2.past.map Visit.type =
      (emitLevel track visitor depth level progress).2.1.reverse ++
        progress.past.map Visit.type := by
  induction level generalizing progress with
  | nil => rfl
  | cons t rest ih =>
    rw [emitLevel]
    cases hanswer : visitor progress.past (progress.visit track t depth) with
    | some result => rfl
    | none =>
      dsimp only
      rw [ih, List.reverse_cons, List.append_assoc]
      rfl

/-- What is visited of a layer is its beginning. -/
theorem prefix_emitLevel : (emitLevel track visitor depth level progress).2.1 <+: level := by
  induction level generalizing progress with
  | nil => exact List.prefix_rfl
  | cons t rest ih =>
    rw [emitLevel]
    cases hanswer : visitor progress.past (progress.visit track t depth) with
    | some result => exact List.prefix_append [t] rest
    | none => exact (List.prefix_cons_inj t).2 ih

/-- The visit at which a walk is halted belongs to its last stratum. -/
theorem emitLevel_ne_nil (h : (emitLevel track visitor depth level progress).1 = some result) :
    (emitLevel track visitor depth level progress).2.1 ≠ [] := by
  cases level with
  | nil => cases h
  | cons t rest =>
    rw [emitLevel]
    cases hanswer : visitor progress.past (progress.visit track t depth) with
    | some result => exact List.cons_ne_nil _ _
    | none => exact List.cons_ne_nil _ _

/-- The strata hold what has been visited, wherever the walk is halted. -/
theorem order_emit : (emit successors track visitor depth levels progress).order =
    (progress.past.map Visit.type).reverse ++
      (emit successors track visitor depth levels progress).strata.flatten := by
  induction levels generalizing depth progress with
  | nil => simp [emit, order, Progress.finish]
  | cons level later ih =>
    cases hlevel : (emitLevel track visitor depth level progress).1 with
    | some result =>
      rw [emit_cons_of_eq_some hlevel, order, Progress.finish, List.map_reverse,
        types_past_emitLevel, List.reverse_append, List.reverse_reverse, List.flatten_singleton]
    | none =>
      have htypes : (emitLevel track visitor depth level progress).2.2.past.map Visit.type =
          (emitLevel track visitor depth level progress).2.1.reverse ++
            progress.past.map Visit.type := types_past_emitLevel
      rw [emitLevel_eq hlevel] at htypes
      rw [emit_cons_of_eq_none hlevel]
      refine ih.trans ?_
      rw [Progress.past_recordAll, htypes, List.reverse_append, List.reverse_reverse,
        List.append_assoc]
      rfl

/-- The strata before the last are complete, and the last is the beginning of one. -/
theorem strata_emit_of_eq_some
    (h : (emit successors track visitor depth levels progress).result = some result) :
    ∃ complete part rest later,
      (emit successors track visitor depth levels progress).strata = complete ++ [part] ∧
      part ≠ [] ∧ levels = complete ++ (part ++ rest) :: later := by
  induction levels generalizing depth progress with
  | nil => cases h
  | cons level later ih =>
    cases hlevel : (emitLevel track visitor depth level progress).1 with
    | some answer =>
      obtain ⟨rest, hrest⟩ : (emitLevel track visitor depth level progress).2.1 <+: level :=
        prefix_emitLevel
      rw [emit_cons_of_eq_some hlevel]
      exact ⟨[], _, rest, later, rfl, emitLevel_ne_nil hlevel, by rw [hrest, List.nil_append]⟩
    | none =>
      rw [emit_cons_of_eq_none hlevel] at h ⊢
      obtain ⟨complete, part, rest, later, hstrata, hpart, rfl⟩ := ih h
      exact ⟨level :: complete, part, rest, later, congrArg (level :: ·) hstrata, hpart, rfl⟩

/-! ## Both ways to walk -/

theorem follows_breadthFirst {fuel : Nat} {queue : Queue (Ty × Nat)} {visited : FinSet Ty} :
    Follows visitor (breadthFirst successors track Visitor.never fuel queue ⟨[], visited, ∅⟩)
      (breadthFirst successors track visitor fuel queue ⟨[], visited, ∅⟩) where
  result_eq := result_breadthFirst visitor queue visited
  visits_eq := visits_breadthFirst visitor queue visited

theorem follows_emit {visited : FinSet Ty} :
    Follows visitor (emit successors track Visitor.never depth levels ⟨[], visited, ∅⟩)
      (emit successors track visitor depth levels ⟨[], visited, ∅⟩) := by
  obtain ⟨later, hpast, hvisitor⟩ := exists_visits_emit ρ successors track depth levels
    ⟨[], visited, ∅⟩
  have hwhole : (emit successors track Visitor.never depth levels ⟨[], visited, ∅⟩).visits =
      later := by
    rw [emit_eq_finish (result_eq_none _), Progress.finish, hpast, List.append_nil,
      List.reverse_reverse]
  obtain ⟨hresult, hvisits⟩ := hvisitor visitor
  exact ⟨hwhole ▸ hresult, hwhole ▸ hvisits⟩

end Walk

namespace Hierarchy

open Walk

variable {h : Hierarchy} {plan : Plan}

theorem follows_walk : Follows visitor (h.walk plan Visitor.never) (h.walk plan visitor) := by
  rw [walk, walk, walkFrom, walkFrom]
  split
  · exact follows_emit
  · exact follows_breadthFirst

/-- Whoever watches a stratified walk, it goes through the same layers. -/
theorem exists_eq_emit (hplan : plan.stratify) : ∃ successors levels, ∀ {σ : Type}
    (visitor : Visitor σ), h.walk plan visitor =
      emit successors plan.track visitor 0 levels ⟨[], plan.visited, ∅⟩ :=
  ⟨_, _, fun _ ↦ if_pos hplan⟩

/-- **A walk that is halted is the beginning of the walk that is not.** A visitor halts a walk at
its `k`-th call, with some result, exactly if it declines the first visits of the walk that is not
halted and gives this answer to the `k`-th. The walk has then made these `k` visits, with the same
depths and predecessors. The strata of a stratified walk hold the types visited; all but the last
are complete, and the last is the beginning of the one at which the walk was halted. A visitor that
answers no visit does not halt the walk and sees all of it. -/
theorem walk_is_beginning_of_whole (h : Hierarchy) (plan : Plan) (visitor : Visitor ρ) :
    let whole := h.walk plan Visitor.never
    let walk := h.walk plan visitor
    (∀ k result, visitor.HaltsAt [] whole.visits k result ↔
      walk.result = some result ∧ walk.visits.length = k) ∧
    (∀ k result, visitor.HaltsAt [] whole.visits k result →
      walk.order = whole.order.take k ∧ walk.visits = whole.visits.take k ∧
      (plan.stratify → walk.strata.flatten = walk.order ∧
        ∃ complete part rest later, walk.strata = complete ++ [part] ∧ part ≠ [] ∧
          whole.strata = complete ++ (part ++ rest) :: later)) ∧
    ((∀ k result, ¬ visitor.HaltsAt [] whole.visits k result) →
      walk.result = none ∧ walk.order = whole.order ∧ walk.visits = whole.visits) := by
  intro whole walk
  have hfollows : Follows visitor whole walk := follows_walk
  refine ⟨fun k result ↦ hfollows.haltsAt_iff, fun k result hk ↦ ?_, fun hnone ↦ ?_⟩
  · have hvisits : walk.visits = whole.visits.take k :=
      hfollows.visits_eq.trans hk.seen_eq_take
    refine ⟨?_, hvisits, fun hplan ↦ ?_⟩
    · rw [order, order, hvisits, List.map_take]
    · have hresult : walk.result = some result := (hfollows.haltsAt_iff.1 hk).1
      obtain ⟨successors, levels, hemit⟩ := exists_eq_emit (h := h) hplan
      have hlayers : whole.strata = levels := by
        rw [show whole = _ from hemit Visitor.never, emit_eq_finish (result_eq_none _)]
        rfl
      have hwalk : walk = _ := hemit visitor
      rw [hwalk] at hresult
      rw [hwalk, hlayers]
      refine ⟨?_, strata_emit_of_eq_some hresult⟩
      rw [order_emit]
      rfl
  · have hsilent : visitor.firstAnswer? [] whole.visits = none := by
      rw [Option.eq_none_iff_forall_ne_some]
      intro result hanswer
      obtain ⟨k, hk⟩ := Visitor.exists_haltsAt hanswer
      exact hnone k result hk
    have hvisits : walk.visits = whole.visits :=
      hfollows.visits_eq.trans (Visitor.seen_eq_self hsilent)
    exact ⟨hfollows.result_eq.trans hsilent, congrArg (List.map Visit.type) hvisits, hvisits⟩

/-- The visitor that halts at its fifth call. -/
def haltAtFifth : Visitor Nat := fun past now ↦ if past.length = 4 then some now.depth else none

/-- Halted at `y`, the walk does not come to `z` and leaves the stratum of the cycle unfinished. -/
theorem walk_is_beginning_of_whole_braid :
    let whole := braid.walk braidPlan Visitor.never
    let walk := braid.walk braidPlan haltAtFifth
    whole.order = [.named "a", .named "b", .named "c", .named "x", .named "y", .named "z"] ∧
    haltAtFifth.HaltsAt [] whole.visits 5 3 ∧ walk.result = some 3 ∧
    walk.visits = whole.visits.take 5 ∧ walk.order = whole.order.take 5 ∧ braidPlan.stratify ∧
    walk.strata.flatten = walk.order ∧
    walk.strata = [[.named "a"], [.named "b"], [.named "c"], [.named "x", .named "y"]] := by
  intro whole walk
  obtain ⟨hcalls, hhalted, -⟩ := walk_is_beginning_of_whole braid braidPlan haltAtFifth
  have hresult : walk.result = some 3 := by decide +kernel
  have hfifth : haltAtFifth.HaltsAt [] whole.visits 5 3 :=
    (hcalls 5 3).2 ⟨hresult, by decide +kernel⟩
  obtain ⟨horder, hvisits, hstrata⟩ := hhalted 5 3 hfifth
  exact ⟨by decide +kernel, hfifth, hresult, hvisits, horder, by decide,
    (hstrata (by decide)).1, by decide +kernel⟩

end Hierarchy

end Taxonomy
