import Taxonomy.Finite.Map
import Taxonomy.Walk.Layers
import Taxonomy.Walk.Queue

/-!
# Walks

A walk visits types of a graph one after another. A *visitor* watches: it sees each visit together
with the visits before it and may halt the walk by giving a result. The walk also knows a set of
types visited already, which it never visits again and to which it adds.

There are two ways to walk. A *breadth-first* walk visits types by their distance from the seeds; a
type counts as visited from the moment it is queued. A *stratified* walk visits the same types layer
by layer, so that a type comes after all its predecessors as far as there are no cycles; a type
counts as visited from the moment it is visited.

Both are functions of `successors`, the edges in the direction of the walk. The order of visits is
reproducible because successors come in presentation order.
-/

namespace Taxonomy

/-- One step of a walk. -/
structure Visit where
  type : Ty
  /-- The distance from the seeds, or the index of the layer. -/
  depth : Nat
  /-- The types known to have an edge to this one, if the walk keeps track of them. -/
  predecessors : Option (FinSet Ty)
deriving DecidableEq

/-- Decides whether to halt, from the visits so far, latest first, and the present one. -/
abbrev Visitor (ρ : Type) := List Visit → Visit → Option ρ

/-- The visitor that watches and never halts. -/
def Visitor.never : Visitor Empty := fun _ _ ↦ none

/-- What a walk has come to. -/
structure Walk (ρ : Type) where
  /-- What the visitor halted the walk with. -/
  result : Option ρ
  /-- The visits in order. -/
  visits : List Visit
  /-- The layers of a stratified walk. -/
  strata : List (List Ty)
  /-- The types with an edge to each type, if the walk kept track of them. -/
  predecessors : FinMap Ty (FinSet Ty)
  /-- The types that count as visited. -/
  visited : FinSet Ty

namespace Walk

variable {ρ : Type}

/-- The types visited, in order. -/
def order (walk : Walk ρ) : List Ty := walk.visits.map Visit.type

/-- Whether the visitor halted the walk. -/
def halted (walk : Walk ρ) : Bool := walk.result.isSome

/-- A walk under way. -/
structure Progress where
  /-- The visits so far, latest first. -/
  past : List Visit
  visited : FinSet Ty
  predecessors : FinMap Ty (FinSet Ty)

namespace Progress

/-- The walk that ends here. -/
def finish (progress : Progress) (result : Option ρ) (strata : List (List Ty)) : Walk ρ :=
  ⟨result, progress.past.reverse, strata, progress.predecessors, progress.visited⟩

/-- The visit of `t` that comes now. -/
def visit (track : Bool) (progress : Progress) (t : Ty) (depth : Nat) : Visit :=
  ⟨t, depth, if track then progress.predecessors.get? t else none⟩

/-- Remembers a visit. -/
def push (progress : Progress) (now : Visit) : Progress :=
  { progress with past := now :: progress.past }

/-- Counts types as visited. -/
def mark (progress : Progress) (types : List Ty) : Progress :=
  { progress with visited := progress.visited.insertAll types }

/-- Remembers, if the walk keeps track, that `t` has an edge to each of `next`. -/
def record (track : Bool) (progress : Progress) (t : Ty) (next : FinSet Ty) : Progress :=
  if track then
    { progress with
      predecessors := next.toList.foldl (·.upsert · ∅ (·.insert t)) progress.predecessors }
  else progress

end Progress

/-! ## Breadth first -/

/-- Visits what is queued, at most `fuel` types, and queues successors as they come up. The seeds
have been queued and marked before. -/
def breadthFirst (successors : Ty → FinSet Ty) (track : Bool) (visitor : Visitor ρ) :
    Nat → Queue (Ty × Nat) → Progress → Walk ρ
  | 0, _, progress => progress.finish none []
  | fuel + 1, queue, progress =>
    match queue.pop? with
    | none => progress.finish none []
    | some ((t, depth), rest) =>
      let now := progress.visit track t depth
      match visitor progress.past now with
      | some result => (progress.push now).finish (some result) []
      | none =>
        let next := successors t
        let fresh := next.toList.filter (· ∉ progress.visited)
        -- they are marked now and not when their turn comes, so no type is queued twice
        breadthFirst successors track visitor fuel (rest.pushAll (fresh.map (·, depth + 1)))
          (((progress.push now).record track t next).mark fresh)

/-- A walk depends on the order in which types come out of the queue and on nothing else of it. -/
theorem breadthFirst_congr {successors : Ty → FinSet Ty} {track : Bool} {visitor : Visitor ρ}
    {fuel : Nat} {queue queue' : Queue (Ty × Nat)} (h : queue.toList = queue'.toList)
    (progress : Progress) :
    breadthFirst successors track visitor fuel queue progress =
      breadthFirst successors track visitor fuel queue' progress := by
  induction fuel generalizing queue queue' progress with
  | zero => rfl
  | succ fuel ih =>
    rw [breadthFirst, breadthFirst]
    cases hq : queue.pop? with
    | none =>
      have hq' : queue'.pop? = none := by
        rw [Queue.pop?_eq_none_iff, ← h, Queue.pop?_eq_none_iff.1 hq]
      rw [hq']
    | some popped =>
      obtain ⟨⟨t, depth⟩, rest⟩ := popped
      have hlist := Queue.toList_of_pop? hq
      cases hq' : queue'.pop? with
      | none =>
        rw [h, Queue.pop?_eq_none_iff.1 hq'] at hlist
        exact nomatch hlist
      | some popped' =>
        obtain ⟨⟨t', depth'⟩, rest'⟩ := popped'
        rw [h, Queue.toList_of_pop? hq', List.cons.injEq, Prod.mk.injEq] at hlist
        obtain ⟨⟨rfl, rfl⟩, hrest⟩ := hlist
        dsimp only
        split
        · rfl
        · exact ih (by rw [Queue.toList_pushAll, Queue.toList_pushAll, hrest]) _

/-! ## Layer by layer -/

/-- Visits the types of one layer until the visitor halts. Returns the types visited as well. -/
def emitLevel (track : Bool) (visitor : Visitor ρ) (depth : Nat) :
    List Ty → Progress → Option ρ × List Ty × Progress
  | [], progress => (none, [], progress)
  | t :: rest, progress =>
    let now := progress.visit track t depth
    let after := (progress.push now).mark [t]
    match visitor progress.past now with
    | some result => (some result, [t], after)
    | none =>
      let (result, emitted, last) := emitLevel track visitor depth rest after
      (result, t :: emitted, last)

/-- Visits layer after layer. Edges out of a layer are recorded once the layer is complete. -/
def emit (successors : Ty → FinSet Ty) (track : Bool) (visitor : Visitor ρ) :
    Nat → List (List Ty) → Progress → Walk ρ
  | _, [], progress => progress.finish none []
  | depth, level :: later, progress =>
    match emitLevel track visitor depth level progress with
    | (some result, emitted, last) => last.finish (some result) [emitted]
    | (none, emitted, last) =>
      let recorded := level.foldl (fun progress t ↦ progress.record track t (successors t)) last
      let walk := emit successors track visitor (depth + 1) later recorded
      { walk with strata := emitted :: walk.strata }

/-- Visits `types` by the layers of the graph among them; what is on or below a cycle comes last. -/
def stratified (successors : Ty → FinSet Ty) (track : Bool) (visitor : Visitor ρ)
    (types : FinSet Ty) (progress : Progress) : Walk ρ :=
  let inside := fun t ↦ (successors t).filter (· ∈ types)
  emit inside track visitor 0 (Layers.ofGraph inside types).complete progress

end Walk

end Taxonomy
