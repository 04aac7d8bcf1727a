import Mathlib.Logic.Relation
import Taxonomy.Hierarchy.Bounds
import Taxonomy.Proofs.Hierarchy.Edges
import Taxonomy.Proofs.Walk.BreadthFirst

/-!
# Closures and paths

The descendants of a type are the types that a path of at least one edge leads down to, and its
ancestors those that such a path comes from (`mem_descendants_iff`, `mem_ancestors_iff`).
Subsumption of members is a path that may be empty (`subsumes_iff`). None of this asks for a
hierarchy without cycles; that its maps are `Mirrored` is enough.

Walks begin at the neighbours of a type, so the bridge is one fact about breadth-first walks,
`mem_order_explore`: the members are at least as many as the types a walk is admitted to, which is
why the fuel of the walk suffices.
-/

open Relation

namespace Taxonomy.Hierarchy

open Walk

variable {h : Hierarchy} {a b t : Ty} {d : Direction} {plan : Plan} {start seeds : List Ty}

/-- One step in a direction. -/
def Step (h : Hierarchy) (d : Direction) (a b : Ty) : Prop := b ∈ h.neighbours d a

theorem Mirrored.step_up_iff (hm : h.Mirrored) : h.Step .up a b ↔ h.Edge b a :=
  hm.mem_parentsOf_iff b a

/-- Steps are between members. -/
theorem Mirrored.hasType_of_step (hm : h.Mirrored) (hs : h.Step d a b) :
    h.hasType a ∧ h.hasType b := by
  cases d with
  | down => exact ⟨hm.hasType_left hs, hm.hasType_right hs⟩
  | up => exact ⟨hm.hasType_right (hm.step_up_iff.1 hs), hm.hasType_left (hm.step_up_iff.1 hs)⟩

/-! ## Walks of a hierarchy -/

theorem mem_seeds :
    t ∈ h.seeds plan start ↔ t ∈ start ∧ h.hasType t ∧ t ∉ plan.ignored ∧ t ∉ plan.visited := by
  rw [seeds, FinSet.mem_firsts, List.mem_filter]
  simp only [Bool.and_eq_true, decide_eq_true_eq, and_assoc]

theorem hasType_of_mem_seeds : ∀ s ∈ h.seeds plan start, h.hasType s :=
  fun _ hs ↦ (mem_seeds.1 hs).2.1

theorem nodup_seeds : (h.seeds plan start).Nodup := FinSet.nodup_firsts _

theorem mem_successors :
    b ∈ h.successors plan a ↔ h.Step plan.direction a b ∧ b ∉ plan.ignored := by
  rw [successors, FinSet.mem_filter, decide_eq_true_eq]
  rfl

/-- A walk that begins at members is admitted to members only. -/
theorem Mirrored.hasType_of_admitted (hm : h.Mirrored) (hseeds : ∀ s ∈ seeds, h.hasType s)
    (ht : Admitted (h.successors plan) plan.visited seeds t) : h.hasType t := by
  obtain ⟨s, hs, hpath⟩ := ht
  cases hpath with
  | refl => exact hseeds t hs
  | tail _ hlast => exact (hm.hasType_of_step (mem_successors.1 hlast.1).1).2

/-- There are no more distinct members than the size says. -/
theorem length_le_size {l : List Ty} (hl : l.Nodup) (hmem : ∀ t ∈ l, h.hasType t) :
    l.length ≤ h.size := by
  rw [size, ← FinMap.size_keys]
  exact FinSet.length_le_size hl fun t ht ↦ mem_types.2 (hmem t ht)

/-- A walk that begins at members is admitted to no more types than there are members. -/
theorem Mirrored.admitsAtMost_size (hm : h.Mirrored) (hseeds : ∀ s ∈ seeds, h.hasType s) :
    AdmitsAtMost (h.successors plan) plan.visited seeds h.size :=
  fun _ hl hadmitted ↦
    length_le_size hl fun t ht ↦ hm.hasType_of_admitted hseeds (hadmitted t ht)

/-- A breadth-first walk of a hierarchy visits exactly the admitted types. -/
theorem mem_order_explore (hm : h.Mirrored) (hnodup : seeds.Nodup)
    (hseeds : ∀ s ∈ seeds, h.hasType s) :
    t ∈ (h.explore plan Visitor.never seeds).order ↔
      Admitted (h.successors plan) plan.visited seeds t :=
  mem_order_breadthFirst hnodup (hm.admitsAtMost_size hseeds)

/-- A breadth-first walk that is not halted goes on until nothing waits any more, with what its
steps keep, and asks its visitor at each visit. -/
theorem Mirrored.exists_finish_explore {ρ : Type} {visitor : Visitor ρ}
    {P : List (Ty × Nat) → Progress → Prop} (hm : h.Mirrored) (hnodup : seeds.Nodup)
    (hseeds : ∀ s ∈ seeds, h.hasType s)
    (hinitial : P (seeds.map (·, 0)) ⟨[], plan.visited.insertAll seeds, ∅⟩)
    (hstep : ∀ t depth rest progress,
      Underway (h.successors plan) plan.visited seeds (t :: rest.map Prod.fst) progress →
      P ((t, depth) :: rest) progress →
      P (rest ++ progress.found (h.successors plan) t depth)
        (progress.next plan.track (h.successors plan) t depth))
    (hunhalted : (h.explore plan visitor seeds).halted = false) :
    ∃ last, Underway (h.successors plan) plan.visited seeds [] last ∧ P [] last ∧
      h.explore plan visitor seeds = last.finish none [] ∧
      visitor.firstAnswer? [] (h.explore plan visitor seeds).visits = none := by
  obtain ⟨last, hlast, hP, hnever⟩ := exists_finish_of_step hnodup hinitial hstep
    (hm.admitsAtMost_size hseeds)
  have heq : h.explore plan visitor seeds = last.finish none [] :=
    breadthFirst_eq_finish hunhalted hnever
  refine ⟨last, hlast, hP, heq, ?_⟩
  have hresult : (h.explore plan visitor seeds).result =
      visitor.firstAnswer? [] (h.explore plan Visitor.never seeds).visits :=
    result_breadthFirst ..
  rw [explore.eq_def h plan Visitor.never, hnever, heq] at hresult
  rw [heq]
  exact hresult.symm

/-! ## Closures -/

/-- What is one step from `t` is where its closure begins. -/
theorem mem_seeds_neighbours (hm : h.Mirrored) :
    b ∈ h.seeds { direction := d } (h.neighbours d a).toList ↔ h.Step d a b := by
  rw [mem_seeds, FinSet.mem_toList]
  refine ⟨And.left, fun hs ↦ ⟨hs, (hm.hasType_of_step hs).2, ?_, ?_⟩⟩
  · exact FinSet.not_mem_empty b
  · exact FinSet.not_mem_empty b

/-- The walk from the neighbours of a type visits what at least one step leads to. -/
theorem mem_order_walkFrom_neighbours (hm : h.Mirrored) :
    t ∈ (h.walkFrom { direction := d } Visitor.never (h.neighbours d a).toList).order ↔
      TransGen (h.Step d) a t := by
  have hstep : (fun u v ↦ v ∈ h.successors { direction := d } u ∧ v ∉ (∅ : FinSet Ty)) =
      h.Step d := by
    funext u v
    rw [mem_successors, eq_iff_iff]
    simp only [FinSet.not_mem_empty, not_false_eq_true, and_true]
  -- the fuel suffices because the walk begins at members
  change t ∈ (h.explore { direction := d } Visitor.never _).order ↔ _
  rw [mem_order_explore hm nodup_seeds hasType_of_mem_seeds, Admitted, hstep,
    TransGen.head'_iff]
  exact exists_congr fun s ↦ and_congr_left fun _ ↦ mem_seeds_neighbours hm

theorem mem_closure_iff (hm : h.Mirrored) : t ∈ h.closure d a ↔ TransGen (h.Step d) a t := by
  rw [closure, FinSet.mem_ofList, mem_order_walkFrom_neighbours hm]

/-- **Descendants** are what a path leads down to. -/
theorem mem_descendants_iff (hm : h.Mirrored) : t ∈ h.descendants a ↔ TransGen h.Edge a t :=
  mem_closure_iff hm

/-- A path up is a path down, from its end to its beginning. -/
theorem Mirrored.transGen_step_up_iff (hm : h.Mirrored) :
    TransGen (h.Step .up) a t ↔ TransGen h.Edge t a := by
  have hstep : h.Step .up = Function.swap h.Edge := by
    funext u v
    exact propext hm.step_up_iff
  rw [hstep]
  exact transGen_swap

/-- **Ancestors** are what a path comes down from. -/
theorem mem_ancestors_iff (hm : h.Mirrored) : t ∈ h.ancestors a ↔ TransGen h.Edge t a := by
  rw [ancestors, mem_closure_iff hm, hm.transGen_step_up_iff]

/-- The ancestors of a type are its parents and theirs. -/
theorem Mirrored.mem_ancestors_iff_parentsOf (hm : h.Mirrored) :
    t ∈ h.ancestors a ↔ ∃ p ∈ h.parentsOf a, t = p ∨ t ∈ h.ancestors p := by
  rw [mem_ancestors_iff hm, TransGen.tail'_iff]
  refine exists_congr fun p ↦ ?_
  rw [hm.mem_parentsOf_iff, mem_ancestors_iff hm, reflTransGen_iff_eq_or_transGen, and_comm,
    eq_comm]

/-- A path in a direction has its ends at members. -/
theorem Mirrored.hasType_of_transGen (hm : h.Mirrored) (hp : TransGen (h.Step d) a b) :
    h.hasType a ∧ h.hasType b := by
  obtain ⟨_, hfirst, -⟩ := TransGen.head'_iff.1 hp
  obtain ⟨_, -, hlast⟩ := TransGen.tail'_iff.1 hp
  exact ⟨(hm.hasType_of_step hfirst).1, (hm.hasType_of_step hlast).2⟩

/-- A path that begins at a member ends at one. -/
theorem Mirrored.hasType_of_reflTransGen (hm : h.Mirrored) (ha : h.hasType a)
    (hp : ReflTransGen (h.Step d) a t) : h.hasType t := by
  cases hp with
  | refl => exact ha
  | tail _ hlast => exact (hm.hasType_of_step hlast).2

theorem mem_reflexiveClosure_iff (hm : h.Mirrored) :
    t ∈ h.reflexiveClosure d a ↔ TransGen (h.Step d) a t ∨ t = a ∧ h.hasType a := by
  rw [reflexiveClosure]
  split
  · rename_i ha
    rw [FinSet.mem_insert, mem_closure_iff hm, or_comm, and_iff_left ha]
  · rename_i ha
    rw [mem_closure_iff hm, or_iff_left fun hc ↦ ha hc.2]

/-- The reflexive closure of a member is what a path that may be empty leads to. -/
theorem Mirrored.mem_reflexiveClosure_iff_path (hm : h.Mirrored) (ha : h.hasType a) :
    t ∈ h.reflexiveClosure d a ↔ ReflTransGen (h.Step d) a t := by
  rw [mem_reflexiveClosure_iff hm, reflTransGen_iff_eq_or_transGen, and_iff_left ha, or_comm]

/-! ## Reaching one type -/

/-- A visitor that halts at a type answers if the type is visited. -/
theorem isSome_firstAnswer?_stopAt {target : Ty} (past later : List Visit) :
    ((stopAt target).firstAnswer? past later).isSome ↔ target ∈ later.map Visit.type := by
  induction later generalizing past with
  | nil => simp [Visitor.firstAnswer?]
  | cons now rest ih =>
    rw [Visitor.firstAnswer?, stopAt, List.map_cons, List.mem_cons]
    by_cases hnow : now.type = target
    · simp [hnow]
    · rw [if_neg hnow, Option.none_or, ih, or_iff_right (Ne.symm hnow)]

/-- A walk that halts at a type is halted if the walk that goes on would visit the type. -/
theorem halted_walkFrom_stopAt {target : Ty} :
    (h.walkFrom { direction := d } (stopAt target) start).halted ↔
      target ∈ (h.walkFrom { direction := d } Visitor.never start).order := by
  change (h.explore { direction := d } (stopAt target) _).result.isSome ↔
    target ∈ (h.explore { direction := d } Visitor.never _).visits.map Visit.type
  rw [explore, result_breadthFirst, isSome_firstAnswer?_stopAt]
  rfl

theorem reaches_iff (hm : h.Mirrored) : h.reaches d a b ↔ TransGen (h.Step d) a b := by
  rw [reaches, Bool.and_eq_true, Bool.and_eq_true, halted_walkFrom_stopAt,
    mem_order_walkFrom_neighbours hm]
  exact and_iff_right_of_imp hm.hasType_of_transGen

/-- **Subsumption** is a path that may be empty. -/
theorem subsumes_iff (hm : h.Mirrored) : h.subsumes a b ↔ ReflTransGen h.Edge a b := by
  rw [subsumes, Bool.or_eq_true, decide_eq_true_eq, reaches_iff hm,
    reflTransGen_iff_eq_or_transGen, eq_comm]
  rfl

end Taxonomy.Hierarchy
