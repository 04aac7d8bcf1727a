import Taxonomy.Proofs.Walk.BreadthFirst
import Taxonomy.Proofs.Walk.Levels

/-!
# What a stratified walk shows its visitor

A walk that is not halted goes through whole layers. `Progress.afterLayers` is how far it has come
after some of them, without regard to any visitor, and `emit_eq_finish` says that a walk that is not
halted ends there. A visit is made with what was recorded in the layers before
(`exists_of_mem_past_afterLayers`), that is with their edges to the type
(`mem_predecessors_afterLayers`).

With what is known of the layers, this gives each visit of a stratified walk: its depth is the index
of its stratum (`Unhalted.exists_stratum`), and unless the type is on or below a cycle the depth is
also the length of the longest path to it (`Unhalted.isGreatest_depth`), and all its predecessors
are on record (`Unhalted.mem_predecessors_iff`).

As in a breadth-first walk, the visitor sees the visits of the walk that is not halted up to the
first that it answers, and the answer is the result (`exists_visits_emit`).
-/

open Relation

namespace Taxonomy

theorem Visitor.firstAnswer?_append {ρ : Type} {visitor : Visitor ρ}
    {past before later : List Visit} : visitor.firstAnswer? past (before ++ later) =
      (visitor.firstAnswer? past before).or
        (visitor.firstAnswer? (before.reverse ++ past) later) := by
  induction before generalizing past with
  | nil => rfl
  | cons now rest ih =>
    rw [List.cons_append, firstAnswer?, firstAnswer?, ih, Option.or_assoc, List.reverse_cons,
      List.append_assoc, List.singleton_append]

/-- A visitor that has answered sees nothing of what would come later. -/
theorem Visitor.seen_append_of_isSome {ρ : Type} {visitor : Visitor ρ}
    {past before later : List Visit} (h : (visitor.firstAnswer? past before).isSome) :
    visitor.seen past (before ++ later) = visitor.seen past before := by
  induction before generalizing past with
  | nil => cases h
  | cons now rest ih =>
    rw [List.cons_append, seen, seen]
    cases hanswer : visitor past now with
    | some result => rfl
    | none =>
      rw [firstAnswer?, hanswer, Option.none_or] at h
      rw [ih h]

/-- A visitor that has not answered has seen everything. -/
theorem Visitor.seen_append_of_eq_none {ρ : Type} {visitor : Visitor ρ}
    {past before later : List Visit} (h : visitor.firstAnswer? past before = none) :
    visitor.seen past (before ++ later) =
      before ++ visitor.seen (before.reverse ++ past) later := by
  induction before generalizing past with
  | nil => rfl
  | cons now rest ih =>
    rw [firstAnswer?, Option.or_eq_none_iff] at h
    obtain ⟨hnow, hrest⟩ := h
    rw [List.cons_append, seen, hnow, ih hrest, List.reverse_cons, List.append_assoc,
      List.singleton_append]
    rfl

namespace Walk

variable {ρ : Type} {successors : Ty → FinSet Ty} {track : Bool} {visitor : Visitor ρ}
  {progress : Progress} {depth : Nat} {level : List Ty} {levels : List (List Ty)} {p t u : Ty}
  {now : Visit}

namespace Progress

/-! ## What is recorded -/

/-- To record the edges from `t` is to count it among the predecessors of its successors. -/
theorem mem_predecessors_record {next : FinSet Ty} :
    p ∈ (progress.record track t next).predecessors.getD u ∅ ↔
      p ∈ progress.predecessors.getD u ∅ ∨ track ∧ p = t ∧ u ∈ next := by
  cases track with
  | false => simp [record]
  | true =>
    have hfold : ∀ (l : List Ty) (m : FinMap Ty (FinSet Ty)),
        p ∈ (l.foldl (fun m v ↦ m.upsert v ∅ (·.insert t)) m).getD u ∅ ↔
          p ∈ m.getD u ∅ ∨ p = t ∧ u ∈ l := by
      intro l
      induction l with
      | nil => simp
      | cons v rest ih =>
        intro m
        rw [List.foldl_cons, ih, FinMap.getD, FinMap.get?_upsert, List.mem_cons]
        by_cases huv : u = v
        · subst huv
          simp only [if_true, Option.getD_some, FinSet.mem_insert, true_or, and_true]
          tauto
        · rw [if_neg huv, or_iff_right huv]
          rfl
    simpa [record] using hfold next.toList progress.predecessors

/-- Records the edges out of some types. -/
def recordAll (track : Bool) (successors : Ty → FinSet Ty) (types : List Ty)
    (progress : Progress) : Progress :=
  types.foldl (fun progress t ↦ progress.record track t (successors t)) progress

theorem mem_predecessors_recordAll :
    p ∈ (progress.recordAll track successors level).predecessors.getD u ∅ ↔
      p ∈ progress.predecessors.getD u ∅ ∨ track ∧ p ∈ level ∧ u ∈ successors p := by
  induction level generalizing progress with
  | nil => simp [recordAll]
  | cons t rest ih =>
    rw [recordAll, List.foldl_cons, ← recordAll, ih, mem_predecessors_record, List.mem_cons]
    constructor
    · rintro ((hold | ⟨htrack, rfl, hu⟩) | ⟨htrack, hp, hu⟩)
      · exact .inl hold
      · exact .inr ⟨htrack, .inl rfl, hu⟩
      · exact .inr ⟨htrack, .inr hp, hu⟩
    · rintro (hold | ⟨htrack, rfl | hp, hu⟩)
      · exact .inl (.inl hold)
      · exact .inl (.inr ⟨htrack, rfl, hu⟩)
      · exact .inr ⟨htrack, hp, hu⟩

@[simp] theorem past_recordAll :
    (progress.recordAll track successors level).past = progress.past := by
  induction level generalizing progress with
  | nil => rfl
  | cons t rest ih => rw [recordAll, List.foldl_cons, ← recordAll, ih, past_record]

/-! ## Whole layers -/

/-- The progress once the types of a layer have been visited. -/
def visitLayer (track : Bool) (depth : Nat) (level : List Ty) (progress : Progress) : Progress where
  past := (level.map (progress.visit track · depth)).reverse ++ progress.past
  visited := progress.visited.insertAll level
  predecessors := progress.predecessors

/-- The progress once whole layers have been visited and their edges recorded. -/
def afterLayers (successors : Ty → FinSet Ty) (track : Bool) :
    Nat → List (List Ty) → Progress → Progress
  | _, [], progress => progress
  | depth, level :: later, progress =>
    afterLayers successors track (depth + 1) later
      ((progress.visitLayer track depth level).recordAll track successors level)

/-- What has been recorded are the edges out of the layers. -/
theorem mem_predecessors_afterLayers :
    p ∈ (progress.afterLayers successors track depth levels).predecessors.getD u ∅ ↔
      p ∈ progress.predecessors.getD u ∅ ∨ track ∧ p ∈ levels.flatten ∧ u ∈ successors p := by
  induction levels generalizing depth progress with
  | nil => simp [afterLayers]
  | cons level later ih =>
    rw [afterLayers, ih, mem_predecessors_recordAll, List.flatten_cons, List.mem_append, visitLayer]
    tauto

/-- The visits come in the order of the layers. -/
theorem types_past_afterLayers :
    (progress.afterLayers successors track depth levels).past.map Visit.type =
      levels.flatten.reverse ++ progress.past.map Visit.type := by
  induction levels generalizing depth progress with
  | nil => rfl
  | cons level later ih =>
    have htypes : (level.map (progress.visit track · depth)).map Visit.type = level := by
      rw [List.map_map]
      exact List.map_id level
    rw [afterLayers, ih, past_recordAll, visitLayer, List.map_append, List.map_reverse, htypes,
      List.flatten_cons, List.reverse_append, List.append_assoc]

/-- A visit is made with what was recorded in the layers before. -/
theorem exists_of_mem_past_afterLayers
    (h : now ∈ (progress.afterLayers successors track depth levels).past) :
    now ∈ progress.past ∨ ∃ before level later, levels = before ++ level :: later ∧
      now.type ∈ level ∧
      now = (progress.afterLayers successors track depth before).visit track now.type
        (depth + before.length) := by
  induction levels generalizing depth progress with
  | nil => exact .inl h
  | cons level later ih =>
    rcases ih h with hpast | ⟨before, level', later', rfl, hmem, hnow⟩
    · rw [past_recordAll, visitLayer, List.mem_append, List.mem_reverse, List.mem_map] at hpast
      rcases hpast with ⟨t, ht, rfl⟩ | hpast
      · exact .inr ⟨[], level, later, rfl, ht, rfl⟩
      · exact .inl hpast
    · refine .inr ⟨level :: before, level', later', rfl, hmem, ?_⟩
      rw [List.length_cons, Nat.add_comm before.length 1, ← Nat.add_assoc]
      exact hnow

end Progress

/-! ## Walks that are not halted -/

theorem result_emitLevel : (emitLevel track visitor depth level progress).1 =
    visitor.firstAnswer? progress.past (level.map (progress.visit track · depth)) := by
  induction level generalizing progress with
  | nil => rfl
  | cons t rest ih =>
    rw [emitLevel, List.map_cons, Visitor.firstAnswer?]
    cases hanswer : visitor progress.past (progress.visit track t depth) with
    | some result => simp only [Option.some_or]
    | none =>
      simp only [Option.none_or]
      exact ih

/-- The visits of a layer are those that the visitor sees. -/
theorem past_emitLevel : (emitLevel track visitor depth level progress).2.2.past =
    (visitor.seen progress.past (level.map (progress.visit track · depth))).reverse ++
      progress.past := by
  induction level generalizing progress with
  | nil => rfl
  | cons t rest ih =>
    rw [emitLevel, List.map_cons, Visitor.seen, List.reverse_cons, List.append_assoc,
      List.singleton_append]
    cases hanswer : visitor progress.past (progress.visit track t depth) with
    | some result => rfl
    | none =>
      dsimp only
      rw [ih]
      rfl

theorem emitLevel_eq (h : (emitLevel track visitor depth level progress).1 = none) :
    emitLevel track visitor depth level progress =
      (none, level, progress.visitLayer track depth level) := by
  induction level generalizing progress with
  | nil => rfl
  | cons t rest ih =>
    rw [emitLevel] at h ⊢
    cases hanswer : visitor progress.past (progress.visit track t depth) with
    | some result => simp only [hanswer, reduceCtorEq] at h
    | none =>
      simp only [hanswer] at h ⊢
      rw [ih h]
      simp [Progress.visitLayer, Progress.push, Progress.mark, Progress.visit, FinSet.insertAll]

/-- An answer in the first layer ends the walk there. -/
theorem emit_cons_of_eq_some {result : ρ}
    (h : (emitLevel track visitor depth level progress).1 = some result) :
    emit successors track visitor depth (level :: levels) progress =
      (emitLevel track visitor depth level progress).2.2.finish (some result)
        [(emitLevel track visitor depth level progress).2.1] := by
  rw [emit]
  split
  · rename_i heq
    rw [heq] at h ⊢
    rw [Option.some.inj h]
  · rename_i heq
    rw [heq] at h
    exact nomatch h

/-- Without one the walk goes on with the next layer. -/
theorem emit_cons_of_eq_none (h : (emitLevel track visitor depth level progress).1 = none) :
    emit successors track visitor depth (level :: levels) progress =
      let walk := emit successors track visitor (depth + 1) levels
        ((progress.visitLayer track depth level).recordAll track successors level)
      { walk with strata := level :: walk.strata } := by
  rw [emit, emitLevel_eq h]
  rfl

/-- A walk that is not halted visits whole layers. -/
theorem emit_eq_finish (h : (emit successors track visitor depth levels progress).result = none) :
    emit successors track visitor depth levels progress =
      (progress.afterLayers successors track depth levels).finish none levels := by
  induction levels generalizing depth progress with
  | nil => rfl
  | cons level later ih =>
    have hnone : (emitLevel track visitor depth level progress).1 = none := by
      cases hlevel : (emitLevel track visitor depth level progress).1 with
      | none => rfl
      | some result =>
        rw [emit_cons_of_eq_some hlevel] at h
        exact nomatch h
    rw [emit_cons_of_eq_none hnone] at h ⊢
    dsimp only at h ⊢
    rw [ih h]
    rfl

variable (ρ successors track) in
/-- What a visitor sees and answers are visits of the walk that is not halted. -/
theorem exists_visits_emit (depth : Nat) (levels : List (List Ty)) (progress : Progress) :
    ∃ later,
      (progress.afterLayers successors track depth levels).past = later.reverse ++ progress.past ∧
      ∀ visitor : Visitor ρ,
        (emit successors track visitor depth levels progress).result =
          visitor.firstAnswer? progress.past later ∧
        (emit successors track visitor depth levels progress).visits =
          progress.past.reverse ++ visitor.seen progress.past later := by
  induction levels generalizing depth progress with
  | nil => exact ⟨[], rfl, fun _ ↦ ⟨rfl, (List.append_nil _).symm⟩⟩
  | cons level rest ih =>
    obtain ⟨later, hpast, hvisitor⟩ := ih (depth + 1)
      ((progress.visitLayer track depth level).recordAll track successors level)
    rw [Progress.past_recordAll, Progress.visitLayer] at hpast hvisitor
    refine ⟨level.map (progress.visit track · depth) ++ later, ?_, fun visitor ↦ ?_⟩
    · rw [List.reverse_append, List.append_assoc]
      exact hpast
    · rw [Visitor.firstAnswer?_append, ← result_emitLevel]
      have hanswer : (emitLevel track visitor depth level progress).1 =
          visitor.firstAnswer? progress.past (level.map (progress.visit track · depth)) :=
        result_emitLevel
      cases hlevel : (emitLevel track visitor depth level progress).1 with
      | none =>
        rw [hlevel] at hanswer
        obtain ⟨hresult, hseen⟩ := hvisitor visitor
        rw [emit_cons_of_eq_none hlevel, Option.none_or,
          Visitor.seen_append_of_eq_none hanswer.symm]
        refine ⟨hresult, hseen.trans ?_⟩
        rw [List.reverse_append, List.reverse_reverse, List.append_assoc]
      | some result =>
        rw [hlevel] at hanswer
        rw [emit_cons_of_eq_some hlevel, Option.some_or,
          Visitor.seen_append_of_isSome (by rw [← hanswer]; rfl)]
        refine ⟨rfl, ?_⟩
        rw [Progress.finish, past_emitLevel, List.reverse_append, List.reverse_reverse]

/-! ## Stratified walks -/

/-- The successors that a walk of some types visits. -/
def within (successors : Ty → FinSet Ty) (types : FinSet Ty) (t : Ty) : FinSet Ty :=
  (successors t).filter (· ∈ types)

variable {types blocked : FinSet Ty}

theorem among_within :
    Among (within successors types) {t | t ∈ types} = Among successors {t | t ∈ types} := by
  funext a b
  refine propext (and_congr_right fun _ ↦ and_congr_right fun hb ↦ ?_)
  rw [within, FinSet.mem_filter, decide_eq_true_eq]
  exact and_iff_left hb

/-- The walk visits `types` layer by layer and is not halted. -/
structure Unhalted (successors : Ty → FinSet Ty) (track : Bool) (visitor : Visitor ρ)
    (types blocked : FinSet Ty) (walk : Walk ρ) : Prop where
  eq_stratified : walk = stratified successors track visitor types ⟨[], blocked, ∅⟩
  result_eq_none : walk.result = none

namespace Unhalted

variable {walk : Walk ρ} (hu : Unhalted successors track visitor types blocked walk)

include hu

theorem result_emit : (emit (within successors types) track visitor 0
    (Layers.ofGraph (within successors types) types).complete ⟨[], blocked, ∅⟩).result = none := by
  have hnone : walk.result = none := hu.result_eq_none
  rw [hu.eq_stratified] at hnone
  exact hnone

theorem eq_finish : walk = (Progress.afterLayers (within successors types) track 0
    (Layers.ofGraph (within successors types) types).complete ⟨[], blocked, ∅⟩).finish none
      (Layers.ofGraph (within successors types) types).complete :=
  hu.eq_stratified.trans (emit_eq_finish hu.result_emit)

theorem strata_eq : walk.strata = (Layers.ofGraph (within successors types) types).complete := by
  rw [hu.eq_finish]
  rfl

/-- The strata are the order of the walk, cut into layers. -/
theorem flatten_strata : walk.strata.flatten = walk.order := by
  rw [hu.eq_finish, order, Progress.finish, List.map_reverse, Progress.types_past_afterLayers,
    List.map_nil, List.append_nil, List.reverse_reverse]

/-- **A stratified walk visits its types**, each once. -/
theorem perm_order : walk.order.Perm types.toList := by
  rw [← hu.flatten_strata, hu.strata_eq]
  exact Layers.perm_complete

/-- The visitor was asked at each visit and did not answer. -/
theorem firstAnswer?_visits : visitor.firstAnswer? [] walk.visits = none := by
  obtain ⟨later, hpast, hvisitor⟩ := exists_visits_emit ρ (within successors types) track 0
    (Layers.ofGraph (within successors types) types).complete ⟨[], blocked, ∅⟩
  have hvisits : walk.visits = later := by
    rw [hu.eq_finish, Progress.finish, hpast, List.append_nil, List.reverse_reverse]
  rw [hvisits, ← (hvisitor visitor).1]
  exact hu.result_emit

/-- A visit is made in the layer of its depth, with what was recorded before that layer. -/
theorem exists_stratum (hnow : now ∈ walk.visits) :
    ∃ stratum, walk.strata[now.depth]? = some stratum ∧ now.type ∈ stratum ∧
      (track → ∀ p, p ∈ now.predecessors.getD ∅ ↔
        p ∈ (walk.strata.take now.depth).flatten ∧ now.type ∈ within successors types p) := by
  rw [hu.eq_finish, Progress.finish, List.mem_reverse] at hnow
  rcases Progress.exists_of_mem_past_afterLayers hnow with
    hnil | ⟨before, stratum, later, hlayers, hmem, heq⟩
  · exact absurd hnil List.not_mem_nil
  · have hdepth : now.depth = before.length := by
      rw [heq]
      exact Nat.zero_add _
    rw [hu.strata_eq, hlayers, hdepth, List.take_left]
    refine ⟨stratum, ?_, hmem, fun htrack p ↦ ?_⟩
    · rw [List.getElem?_append_right (Nat.le_refl _), Nat.sub_self]
      rfl
    · have hpredecessors : now.predecessors.getD ∅ =
          (Progress.afterLayers (within successors types) track 0 before
            ⟨[], blocked, ∅⟩).predecessors.getD now.type ∅ := by
        rw [heq, Progress.visit, if_pos htrack]
        rfl
      rw [hpredecessors, Progress.mem_predecessors_afterLayers, FinMap.getD, FinMap.get?_empty]
      simp [htrack]

/-- Unless a type is on or below a cycle, its stratum is one of the layers proper. -/
theorem exists_level (hnow : now ∈ walk.visits)
    (hcycle : ¬ BelowCycle (Among successors {t | t ∈ types}) now.type) :
    now.type ∉ (Layers.ofGraph (within successors types) types).stuck ∧
      ∃ level, (Layers.ofGraph (within successors types) types).levels[now.depth]? = some level ∧
        now.type ∈ level := by
  obtain ⟨level, hlevel, hmem, -⟩ := hu.exists_stratum hnow
  rw [hu.strata_eq] at hlevel
  rw [← among_within, ← Layers.mem_stuck_iff_belowCycle] at hcycle
  exact ⟨hcycle, level, Layers.getElem?_levels_of_complete hlevel hmem hcycle, hmem⟩

/-- **The depth is the length of the longest path**, but for types on or below a cycle. -/
theorem isGreatest_depth (hnow : now ∈ walk.visits)
    (hcycle : ¬ BelowCycle (Among successors {t | t ∈ types}) now.type) :
    IsGreatest {n | PathTo (Among successors {t | t ∈ types}) n now.type} now.depth := by
  obtain ⟨-, level, hlevel, hmem⟩ := hu.exists_level hnow hcycle
  rw [← among_within]
  exact Layers.isGreatest_of_mem_levels hlevel hmem

/-- **All predecessors are on record** at a visit, but for types on or below a cycle. -/
theorem mem_predecessors_iff (hnow : now ∈ walk.visits)
    (hcycle : ¬ BelowCycle (Among successors {t | t ∈ types}) now.type) (htrack : track) :
    p ∈ now.predecessors.getD ∅ ↔ Among successors {t | t ∈ types} p now.type := by
  obtain ⟨hstuck, level, hlevel, hmem⟩ := hu.exists_level hnow hcycle
  obtain ⟨stratum, hstratum, hmem', hpredecessors⟩ := hu.exists_stratum hnow
  have htypes : ∀ t ∈ walk.strata.flatten, t ∈ types := fun t ht ↦
    FinSet.mem_toList.1 (hu.perm_order.mem_iff.1 (hu.flatten_strata ▸ ht))
  rw [hpredecessors htrack, ← among_within]
  constructor
  · rintro ⟨hp, hedge⟩
    have hsub := (List.take_sublist now.depth walk.strata).flatten
    exact ⟨htypes p (hsub.subset hp), htypes now.type (List.mem_flatten.2
      ⟨stratum, List.mem_of_getElem? hstratum, hmem'⟩), hedge⟩
  · intro hedge
    rw [hu.strata_eq]
    exact ⟨Layers.mem_flatten_take hlevel hmem hstuck hedge, hedge.2.2⟩

/-- **What is on or below a cycle** is the last stratum. -/
theorem exists_last_stratum (hcycle : ∃ c, TransGen (Among successors {t | t ∈ types}) c c) :
    ∃ stratum, walk.strata.getLast? = some stratum ∧
      ∀ t, t ∈ stratum ↔ BelowCycle (Among successors {t | t ∈ types}) t := by
  have hstuck : ∀ t, t ∈ (Layers.ofGraph (within successors types) types).stuck ↔
      BelowCycle (Among successors {t | t ∈ types}) t := fun t ↦ by
    rw [Layers.mem_stuck_iff_belowCycle, among_within]
  obtain ⟨c, hc⟩ := hcycle
  refine ⟨_, ?_, hstuck⟩
  rw [hu.strata_eq, Layers.complete, if_neg, List.getLast?_concat]
  rw [List.isEmpty_iff]
  exact List.ne_nil_of_mem ((hstuck c).2 ⟨c, hc, .refl⟩)

end Unhalted

end Walk

end Taxonomy
