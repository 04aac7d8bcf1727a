import Mathlib.Order.Bounds.Defs
import Taxonomy.Proofs.Walk.Layers

/-!
# Layers and longest paths

The types of a graph are its layers and what is stuck, each type once (`perm_complete`), and each
layer is presented in order. The layer of a type that is not stuck is the length of the longest path
that ends in the type (`isGreatest_of_mem_levels`), so all its predecessors are in earlier layers
(`mem_flatten_take`).

Both go by recursion on the peeling. Taking the ready types away takes the first edge off every path
and leaves the rest of it, because a type on a path has a predecessor unless it is the first
(`Tallied.pathTo_succ_iff`).
-/

namespace Taxonomy

variable {successors : Ty → FinSet Ty} {types : FinSet Ty} {nodes : List Waiting} {p t : Ty}
  {r r' : Ty → Ty → Prop} {n i fuel : Nat} {level : List Ty}

/-- A path of `n` edges ends in a type. -/
inductive PathTo (r : Ty → Ty → Prop) : Nat → Ty → Prop
  | here (t : Ty) : PathTo r 0 t
  | tail {n : Nat} {p t : Ty} (path : PathTo r n p) (edge : r p t) : PathTo r (n + 1) t

theorem pathTo_succ_iff : PathTo r (n + 1) t ↔ ∃ p, PathTo r n p ∧ r p t := by
  constructor
  · intro h
    cases h with
    | tail path edge => exact ⟨_, path, edge⟩
  · rintro ⟨p, path, edge⟩
    exact path.tail edge

/-- Where no edge leads, the longest path is empty. -/
theorem isGreatest_pathTo_zero (hnone : ∀ p, ¬ r p t) : IsGreatest {n | PathTo r n t} 0 := by
  refine ⟨.here t, fun n hn ↦ ?_⟩
  cases hn with
  | here => exact Nat.le_refl 0
  | tail _ edge => exact absurd edge (hnone _)

namespace Waiting

/-- The types left. -/
def left (nodes : List Waiting) : Set Ty := {t | t ∈ nodes.map type}

theorem left_initial : left (initial successors types) = {t | t ∈ types} := by
  simp only [left, types_initial, FinSet.mem_toList]

/-- What is ready and what is left after peeling are all types. -/
theorem perm_peel (nodes : List Waiting) :
    ((ready nodes).map type ++ (peel nodes).map type).Perm (nodes.map type) := by
  rw [types_peel, ← List.map_append]
  exact (perm_ready nodes).symm.map type

theorem sublist_ready (nodes : List Waiting) :
    ((ready nodes).map type).Sublist (nodes.map type) := List.filter_sublist.map type

theorem sublist_peel (nodes : List Waiting) :
    ((peel nodes).map type).Sublist (nodes.map type) := by
  rw [types_peel]
  exact List.filter_sublist.map type

namespace Tallied

theorem mem_left_peel (hn : Tallied successors nodes) :
    t ∈ left (Waiting.peel nodes) ↔ ∃ p, Among successors (left nodes) p t := by
  rw [left, Set.mem_ofPred_eq, hn.mem_types_peel]
  constructor
  · rintro ⟨ht, p, hp, hpt⟩
    exact ⟨p, hp, ht, hpt⟩
  · rintro ⟨p, hp, ht, hpt⟩
    exact ⟨ht, p, hp, hpt⟩

/-- No edge leads to a type that is ready. -/
theorem not_among_ready (hn : Tallied successors nodes) (ht : t ∈ (ready nodes).map type) :
    ¬ Among successors (left nodes) p t := by
  obtain ⟨node, hnode, rfl⟩ := List.mem_map.1 ht
  obtain ⟨hmem, hzero⟩ := List.mem_filter.1 hnode
  rintro ⟨hp, -, hedge⟩
  exact (hn.pending_ne_zero_iff hmem).2 ⟨p, hp, hedge⟩ (of_decide_eq_true hzero)

/-- A path to a type that is left after peeling has lost its first edge. -/
theorem pathTo_succ_iff (hn : Tallied successors nodes) (ht : t ∈ left (Waiting.peel nodes)) :
    PathTo (Among successors (left nodes)) (n + 1) t ↔
      PathTo (Among successors (left (Waiting.peel nodes))) n t := by
  induction n generalizing t with
  | zero =>
    obtain ⟨p, hpt⟩ := hn.mem_left_peel.1 ht
    exact ⟨fun _ ↦ .here t, fun _ ↦ (PathTo.here p).tail hpt⟩
  | succ n ih =>
    constructor
    · rintro (_ | ⟨path, hpt⟩)
      -- the last type but one has a predecessor as well, so it is left
      rename_i p
      obtain ⟨q, -, hqp⟩ := Taxonomy.pathTo_succ_iff.1 path
      have hp : p ∈ left (Waiting.peel nodes) := hn.mem_left_peel.2 ⟨q, hqp⟩
      exact ((ih hp).1 path).tail ⟨hp, ht, hpt.2.2⟩
    · rintro (_ | ⟨path, hp, -, hpt⟩)
      have hsub : ∀ u, u ∈ left (Waiting.peel nodes) → u ∈ left nodes :=
        fun u hu ↦ (sublist_peel nodes).subset hu
      exact ((ih hp).2 path).tail ⟨hsub _ hp, hsub _ ht, hpt⟩

/-- The longest path to a type that is left after peeling was longer by its first edge. -/
theorem isGreatest_succ (hn : Tallied successors nodes) (ht : t ∈ left (Waiting.peel nodes))
    (hmax : IsGreatest {n | PathTo (Among successors (left (Waiting.peel nodes))) n t} n) :
    IsGreatest {n | PathTo (Among successors (left nodes)) n t} (n + 1) := by
  refine ⟨(hn.pathTo_succ_iff ht).2 hmax.1, fun m hm ↦ ?_⟩
  cases m with
  | zero => exact Nat.zero_le _
  | succ m => exact Nat.succ_le_succ (hmax.2 ((hn.pathTo_succ_iff ht).1 hm))

end Tallied

end Waiting

namespace Layers

open Waiting

/-! ## The layers hold what was peeled -/

theorem perm_ofWaiting (fuel : Nat) (nodes : List Waiting) :
    ((ofWaiting fuel nodes).levels.flatten ++ (ofWaiting fuel nodes).stuck).Perm
      (nodes.map type) := by
  induction fuel generalizing nodes with
  | zero => exact .refl _
  | succ fuel ih =>
    rw [ofWaiting]
    split
    · exact .refl _
    · rw [List.flatten_cons, List.append_assoc]
      exact ((ih (peel nodes)).append_left _).trans (perm_peel nodes)

theorem sublist_ofWaiting (fuel : Nat) (nodes : List Waiting) :
    (∀ level ∈ (ofWaiting fuel nodes).levels, level.Sublist (nodes.map type)) ∧
      (ofWaiting fuel nodes).stuck.Sublist (nodes.map type) := by
  induction fuel generalizing nodes with
  | zero => exact ⟨fun _ h ↦ absurd h List.not_mem_nil, .refl _⟩
  | succ fuel ih =>
    rw [ofWaiting]
    split
    · exact ⟨fun _ h ↦ absurd h List.not_mem_nil, .refl _⟩
    · obtain ⟨hlevels, hstuck⟩ := ih (peel nodes)
      refine ⟨fun level hlevel ↦ ?_, hstuck.trans (sublist_peel nodes)⟩
      rcases List.mem_cons.1 hlevel with rfl | hlater
      · exact sublist_ready nodes
      · exact (hlevels level hlater).trans (sublist_peel nodes)

theorem flatten_complete (layers : Layers) :
    layers.complete.flatten = layers.levels.flatten ++ layers.stuck := by
  rw [complete]
  split
  · rename_i hempty
    rw [List.isEmpty_iff.1 hempty, List.append_nil]
  · rw [List.flatten_append, List.flatten_singleton]

theorem getElem?_complete {layers : Layers} (h : layers.levels[i]? = some level) :
    layers.complete[i]? = some level := by
  rw [complete]
  split
  · exact h
  · rwa [List.getElem?_append_left (List.getElem?_eq_some_iff.1 h).1]

/-- A layer of a type that is not stuck is not the last one made of what is stuck. -/
theorem getElem?_levels_of_complete {layers : Layers} (h : layers.complete[i]? = some level)
    (ht : t ∈ level) (hstuck : t ∉ layers.stuck) : layers.levels[i]? = some level := by
  rw [complete] at h
  split at h
  · exact h
  · rcases Nat.lt_or_ge i layers.levels.length with hlt | hge
    · rwa [List.getElem?_append_left hlt] at h
    · rw [List.getElem?_append_right hge] at h
      obtain rfl : level = layers.stuck := List.mem_singleton.1 (List.mem_of_getElem? h)
      exact absurd ht hstuck

/-- **The layers hold every type once.** -/
theorem perm_complete : (ofGraph successors types).complete.flatten.Perm types.toList := by
  rw [flatten_complete, ofGraph]
  exact (perm_ofWaiting _ _).trans (.of_eq types_initial)

/-- Each layer is presented in order. -/
theorem ascending_of_mem_complete (h : level ∈ (ofGraph successors types).complete) :
    level.Pairwise fun a b ↦ compare a b = .lt := by
  obtain ⟨hlevels, hstuck⟩ := sublist_ofWaiting types.size (initial successors types)
  rw [types_initial] at hlevels hstuck
  refine types.ascending.sublist ?_
  rw [complete] at h
  split at h
  · exact hlevels level h
  · rcases List.mem_append.1 h with hlevel | hlast
    · exact hlevels level hlevel
    · rw [List.mem_singleton.1 hlast]
      exact hstuck

/-! ## The layer of a type -/

theorem isGreatest_ofWaiting (hn : Tallied successors nodes)
    (h : (ofWaiting fuel nodes).levels[i]? = some level) (ht : t ∈ level) :
    IsGreatest {n | PathTo (Among successors (left nodes)) n t} i := by
  induction fuel generalizing nodes i with
  | zero => simp [ofWaiting] at h
  | succ fuel ih =>
    rw [ofWaiting] at h
    split at h
    · simp at h
    · cases i with
      | zero =>
        obtain rfl : (ready nodes).map type = level := Option.some.inj h
        exact isGreatest_pathTo_zero fun p ↦ hn.not_among_ready ht
      | succ i =>
        have hlater : (ofWaiting fuel (peel nodes)).levels[i]? = some level := h
        have hleft : t ∈ left (peel nodes) :=
          ((sublist_ofWaiting fuel (peel nodes)).1 level (List.mem_of_getElem? hlater)).subset ht
        exact hn.isGreatest_succ hleft (ih hn.peel hlater)

/-- **The layer of a type is the length of the longest path to it.** -/
theorem isGreatest_of_mem_levels (h : (ofGraph successors types).levels[i]? = some level)
    (ht : t ∈ level) : IsGreatest {n | PathTo (Among successors {u | u ∈ types}) n t} i := by
  have hleft : left (initial successors types) = {u | u ∈ types} := left_initial
  rw [← hleft]
  exact isGreatest_ofWaiting tallied_initial h ht

/-- A predecessor of a type that is not stuck is in an earlier layer. -/
theorem mem_flatten_take (h : (ofGraph successors types).levels[i]? = some level) (ht : t ∈ level)
    (hstuck : t ∉ (ofGraph successors types).stuck)
    (hpt : Among successors {u | u ∈ types} p t) :
    p ∈ ((ofGraph successors types).complete.take i).flatten := by
  have hp : p ∉ (ofGraph successors types).stuck := fun hp ↦
    hstuck (mem_stuck_iff_belowCycle.2 ((mem_stuck_iff_belowCycle.1 hp).tail hpt))
  have hmem : p ∈ (ofGraph successors types).complete.flatten :=
    perm_complete.mem_iff.2 (FinSet.mem_toList.2 hpt.1)
  rw [flatten_complete, List.mem_append, or_iff_left hp, List.mem_flatten] at hmem
  obtain ⟨level', hlevel', hmem⟩ := hmem
  obtain ⟨j, hj⟩ := List.mem_iff_getElem?.1 hlevel'
  -- the path to `p` goes on to `t`
  have hlt : j + 1 ≤ i :=
    (isGreatest_of_mem_levels h ht).2 ((isGreatest_of_mem_levels hj hmem).1.tail hpt)
  refine List.mem_flatten.2 ⟨level', List.mem_of_getElem? (i := j) ?_, hmem⟩
  rw [List.getElem?_take_of_lt (by omega)]
  exact getElem?_complete hj

end Layers

end Taxonomy
