import Taxonomy.Proofs.Walk.Stratified

/-!
# A walk looks only where it goes

What a walk does is settled by the successors of the types that it visits; elsewhere the graph may
be any other. A breadth-first walk that has fuel for all that it may visit makes no use of more
(`breadthFirst_eq_of_agree`), and a stratified walk looks only at its types (`stratified_congr`).
This is so for any visitor, wherever it halts the walk.
-/

namespace Taxonomy

variable {successors successors' : Ty → FinSet Ty} {types : FinSet Ty}

theorem Layers.ofGraph_congr (hagree : ∀ t ∈ types, successors t = successors' t) :
    ofGraph successors types = ofGraph successors' types := by
  have hedges : (types.toList.map fun t ↦ (t, successors t)) =
      types.toList.map fun t ↦ (t, successors' t) := by
    refine List.map_congr_left fun t ht ↦ ?_
    rw [hagree t (FinSet.mem_toList.1 ht)]
  rw [ofGraph, ofGraph, Waiting.initial, Waiting.initial, hedges]

namespace Walk

variable {ρ : Type} {blocked : FinSet Ty} {seeds : List Ty} {track : Bool} {visitor : Visitor ρ}
  {progress : Progress} {fuel fuel' : Nat}

/-! ## Breadth first -/

/-- **A breadth-first walk looks only where it goes**, and needs fuel for no more than that. -/
theorem breadthFirst_eq_of_agree {queue : Queue (Ty × Nat)}
    (hagree : ∀ t, Admitted successors blocked seeds t → successors t = successors' t)
    (h : Underway successors blocked seeds (queue.toList.map Prod.fst) progress)
    (hfuel : AdmitsAtMost successors blocked seeds (fuel + progress.past.length))
    (hfuel' : AdmitsAtMost successors blocked seeds (fuel' + progress.past.length)) :
    breadthFirst successors track visitor fuel queue progress =
      breadthFirst successors' track visitor fuel' queue progress := by
  induction fuel generalizing fuel' queue progress with
  | zero =>
    -- what waits is admitted, and all that is admitted has been visited
    have hlength := h.length_le hfuel
    rw [List.length_map] at hlength
    have hnil : queue.toList = [] := List.eq_nil_of_length_eq_zero (by omega)
    rw [breadthFirst_of_pop?_eq_none (Queue.pop?_eq_none_iff.2 hnil),
      breadthFirst_of_pop?_eq_none (Queue.pop?_eq_none_iff.2 hnil)]
  | succ fuel ih =>
    cases hq : queue.pop? with
    | none => rw [breadthFirst_of_pop?_eq_none hq, breadthFirst_of_pop?_eq_none hq]
    | some popped =>
      obtain ⟨⟨t, depth⟩, rest⟩ := popped
      rw [Queue.toList_of_pop? hq, List.map_cons] at h
      -- as a type waits, there is fuel on the other side, too
      have hlength := h.length_le hfuel'
      rw [List.length_cons] at hlength
      obtain ⟨fuel', rfl⟩ := Nat.exists_eq_succ_of_ne_zero (show fuel' ≠ 0 by omega)
      have ht : successors t = successors' t :=
        hagree t (h.admitted t (List.mem_append_right _ List.mem_cons_self))
      have hnext : progress.next track successors t depth =
          progress.next track successors' t depth := by
        rw [Progress.next, Progress.next, ht]
      have hfound : progress.found successors t depth = progress.found successors' t depth := by
        rw [Progress.found, Progress.found, ht]
      have hone : ∀ n, n + 1 + progress.past.length =
          n + (progress.next track successors t depth).past.length := by
        intro n
        rw [Progress.past_next, List.length_cons]
        omega
      rw [breadthFirst_of_pop?_eq_some hq, breadthFirst_of_pop?_eq_some hq, ← hnext, ← hfound,
        ih h.step_pushAll (hone fuel ▸ hfuel) (hone fuel' ▸ hfuel')]

/-! ## Layer by layer -/

theorem Progress.recordAll_congr {level : List Ty}
    (hagree : ∀ t ∈ level, successors t = successors' t) :
    progress.recordAll track successors level = progress.recordAll track successors' level := by
  induction level generalizing progress with
  | nil => rfl
  | cons t rest ih =>
    obtain ⟨ht, hrest⟩ := List.forall_mem_cons.1 hagree
    rw [recordAll, List.foldl_cons, ht]
    exact ih hrest

theorem emit_congr {levels : List (List Ty)} {depth : Nat}
    (hagree : ∀ t ∈ levels.flatten, successors t = successors' t) :
    emit successors track visitor depth levels progress =
      emit successors' track visitor depth levels progress := by
  induction levels generalizing depth progress with
  | nil => rfl
  | cons level later ih =>
    rw [List.flatten_cons] at hagree
    rw [emit, emit]
    obtain ⟨answer, emitted, last⟩ := emitLevel track visitor depth level progress
    cases answer with
    | some result => rfl
    | none =>
      have hlevel : last.recordAll track successors level =
          last.recordAll track successors' level :=
        Progress.recordAll_congr fun t ht ↦ hagree t (List.mem_append_left _ ht)
      have hlater : emit successors track visitor (depth + 1) later
            (last.recordAll track successors level) =
          emit successors' track visitor (depth + 1) later
            (last.recordAll track successors' level) := by
        rw [hlevel]
        exact ih fun t ht ↦ hagree t (List.mem_append_right _ ht)
      exact congrArg (fun walk : Walk ρ ↦ { walk with strata := emitted :: walk.strata }) hlater

/-- **A stratified walk looks only at its types.** -/
theorem stratified_congr (hagree : ∀ t ∈ types, successors t = successors' t) :
    stratified successors track visitor types progress =
      stratified successors' track visitor types progress := by
  have hwithin : ∀ t ∈ types, within successors types t = within successors' types t := by
    intro t ht
    rw [within, within, hagree t ht]
  change emit (within successors types) track visitor 0
      (Layers.ofGraph (within successors types) types).complete progress =
    emit (within successors' types) track visitor 0
      (Layers.ofGraph (within successors' types) types).complete progress
  rw [← Layers.ofGraph_congr hwithin]
  exact emit_congr fun t ht ↦
    hwithin t (FinSet.mem_toList.1 (Layers.perm_complete.mem_iff.1 ht))

end Walk

end Taxonomy
